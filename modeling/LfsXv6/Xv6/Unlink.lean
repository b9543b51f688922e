import LfsXv6.Xv6.Making

/-!
# Unlink — `sys_unlink`

The entry `".."` of a directory counts as a link to its parent, which `sys_unlink` takes away.  A kernel
whose only directory is the root is followed here while it unlinks files.
-/

namespace LfsXv6
namespace Xv6

open Lib Prog

/-! ## The calls -/

/-- The loop of `isdirempty` -/
def isdiremptyLoop (dev : Devsw) (ip : Inode) : List Nat → Prog Bufs (Bool × Inode)
  | [] => return (true, ip)
  | off :: offs => do
      let ((ret, de), ip) ← readi dev ip (UInt32.ofNat off) 16
      if ret ≠ 16 then halt "isdirempty: readi"
      else if (Dirent.decode fun o => de.getD o 0).inum ≠ 0 then return (false, ip)
      else isdiremptyLoop dev ip offs

/-- `isdirempty`: is there an entry behind the first two? -/
def isdirempty (dev : Devsw) (dp : Slot) : Prog Kernel Bool :=
  withNode dp fun ip =>
    isdiremptyLoop dev ip ((List.range ((ip.size.toNat + 15) / 16 - 2)).map fun k => 16 * (k + 2))

/-- `sys_unlink`, once its argument has been fetched -/
def sysUnlink (dev : Devsw) (cwd : Slot) (path : List UInt8) : Prog Kernel Int32 := do
  match ← namex cwd path true with
  | none => return -1
  | some (dp, name) => do
      ilock dp
      if namecmp name [46] = 0 ∨ namecmp name [46, 46] = 0 then do
        iunlockput dp
        return -1
      else
        match ← dirlookup dp name with
        | none => do
            iunlockput dp
            return -1
        | some (ip, off) => do
            ilock ip
            let c ← look fun s => s.icache ip
            if c.node.nlink < 1 then halt "unlink: nlink < 1"
            else do
              let empty ← if c.node.type = tDir then isdirempty dev ip else pure true
              if empty = false then do
                iunlockput ip
                iunlockput dp
                return -1
              else do
                let ret ← withNode dp fun node =>
                  writei dev node (List.replicate 16 0) (UInt32.ofNat off) 16
                if ret ≠ 16 then halt "unlink: writei"
                else do
                  if c.node.type = tDir then
                    withNode dp fun node => do
                      let node := { node with nlink := node.nlink - 1 }
                      iupdate node
                      return ((), node)
                  else pure ()
                  iunlockput dp
                  withNode ip fun node => do
                    let node := { node with nlink := node.nlink - 1 }
                    iupdate node
                    return ((), node)
                  iunlockput ip
                  return 0

/-! ## Giving up an inode -/

/-- Inode `i` has been freed. -/
structure Freed (sb : Superblock) (disk : Nat → Sector) (i : Nat) (disk' : Nat → Sector) : Prop where
  node : (dnode disk' i).type = 0
  others : ∀ j, j < sb.ninodes.toNat → j ≠ i → dnode disk' j = dnode disk j
  files : ∀ j, j < sb.ninodes.toNat → j ≠ i → (dnode disk j).type ≠ 0 →
    SameFile disk disk' (dnode disk j)

section Giving

variable {sb : Superblock} {s t : Kernel} {disk disk' : Nat → Sector} {ip : Inode} {f : Slot} {d j : Nat}
variable {l : List (Slot × Nat)} {x : Unit}

/-- Truncation leaves the files of the other inodes alone. -/
theorem Truncated.sameFile (h : Truncated sb disk ip disk') (hh : Holding sb disk ip)
    (hj : j < sb.ninodes.toNat) (hne : j ≠ ip.inum) (ht : (dnode disk j).type ≠ 0) :
    SameFile disk disk' (dnode disk j) := by
  have href : ∀ q, refs sb disk (nodesWith disk ip) (j, q) = (dnode disk j).addr disk q := by
    intro q
    simp only [refs, nodesWith, Function.update_of_ne hne]
    exact if_pos ⟨hj, ht⟩
  have hmine : ∀ q, (dnode disk j).addr disk q ≠ 0 → ¬ sb.BitmapBlock ((dnode disk j).addr disk q) ∧
      ¬ sb.InodeBlock ((dnode disk j).addr disk q) ∧
        ∀ p, ip.addr disk p = (dnode disk j).addr disk q → (dnode disk j).addr disk q = 0 := by
    intro q hq
    rw [← href] at hq ⊢
    obtain ⟨_, hinode, hbitmap⟩ := hh.ledger.data_of_ref hq
    refine ⟨hbitmap, hinode, fun p hp => ?_⟩
    rw [← hh.refs_self] at hp
    exact absurd (Prod.mk.inj (hh.ledger.once _ _ hq hp.symm)).1 hne
  refine SameFile.of_slots (fun b => ¬ sb.BitmapBlock b ∧ ¬ sb.InodeBlock b ∧
      ∀ p, ip.addr disk p = b → b = 0) (fun k hk => hmine (.slot k) hk) (fun _ i hi => hmine (.entry i) hi) ?_
  rintro b ⟨hbitmap, hinode, hother⟩
  refine h.kept b hbitmap ?_ hother
  rintro rfl
  exact hinode (Superblock.inodeBlock_iblock hh.number)

theorem ifree_truncated (h : Accounted sb s) (hpos : 0 < (s.icache f).ref) (hv : (s.icache f).valid = true)
    (hplain : (s.icache f).node.type ≠ tChecked) (hrun : ifree f s = .ok (x, t)) :
    ∃ disk c, Truncated sb s.bufs.disk (s.icache f).node disk ∧ c.ref = (s.icache f).ref ∧
      c.node.inum = (s.icache f).node.inum ∧
      t = ({ s with bufs := { s.bufs with
        disk := putNode disk { emptied (s.icache f).node with type := 0 } } } : Kernel).set f c := by
  obtain ⟨hsync, htype⟩ := h.synced f hpos hv
  have hh := h.consistent.holding (h.number f hpos) htype hsync.symm
  unfold ifree at hrun
  obtain ⟨_, u₁, hset, hrun⟩ := bind_eq_ok hrun
  obtain rfl := setSlot_eq_ok hset
  obtain ⟨_, u₂, hnode, hrun⟩ := bind_eq_ok hrun
  obtain rfl := setSlot_eq_ok hrun
  obtain ⟨node, bufs, hx, rfl⟩ := withNode_eq_ok hnode
  simp only [Kernel.set_icache_self, Kernel.set_bufs] at hx
  obtain ⟨disk, htrunc, htr⟩ := itrunc_truncated hh h.idle fun hc => absurd hc hplain
  rw [bind_of_ok htrunc] at hx
  rw [bind_of_ok (iupdate_ok (s := { s.bufs with disk := disk }) h.idle)] at hx
  cases hx
  refine ⟨disk, ⟨(s.icache f).ref, false, false, { emptied (s.icache f).node with type := 0 }⟩, htr,
    rfl, rfl, ?_⟩
  simp only [Kernel.set_icache_self, Kernel.set_set, Kernel.set_bufs_set]

/-- `iput`, also of the last reference to an inode without links. -/
theorem iput_free (h : Accounted sb s) (hl : Holds s ((f, d) :: l))
    (hplain : (dnode s.bufs.disk d).type ≠ tChecked) (hrun : iput f s = .ok (x, t)) :
    Accounted sb t ∧ Holds t l ∧ (t.bufs.disk = s.bufs.disk ∨ Freed sb s.bufs.disk d t.bufs.disk) := by
  -- the last reference to an inode without links frees it
  by_cases hdrop : (s.icache f).ref = 1 ∧ (s.icache f).valid = true ∧ (s.icache f).node.nlink = 0
  · have hpos := hl.ref_pos
    obtain ⟨hsync, htype⟩ := h.synced f hpos hdrop.2.1
    have hnum := h.number f hpos
    have hh := h.consistent.holding hnum htype hsync.symm
    have hinum := hl.head
    have hnode : (s.icache f).node.type ≠ tChecked := by
      rw [congrArg Dinode.type hsync, hinum]
      exact hplain
    have hcall : (FsCall.put f).run noDevices s = .ok (x, t) := hrun
    have hacc : Accounted sb t := h.put (fun _ hc => absurd hc hnode) hcall
    unfold iput at hrun
    obtain ⟨_, u, hlast, hset⟩ := bind_eq_ok hrun
    obtain rfl := setSlot_eq_ok hset
    unfold iputLast at hlast
    obtain ⟨c, v, hlook, hlast⟩ := bind_eq_ok hlast
    obtain ⟨rfl, rfl⟩ := look_eq_ok hlook
    rw [if_pos hdrop] at hlast
    split at hlast
    · cases hlast
    obtain ⟨disk, c, htr, href, hcnum, rfl⟩ := ifree_truncated h hpos hdrop.2.1 hnode hlast
    refine ⟨hacc, ?_, .inr ⟨?_, ?_, ?_⟩⟩
    · simp only [Kernel.set_icache_self, Kernel.set_set]
      have hl' : Holds { s with bufs := { s.bufs with
          disk := putNode disk { emptied (s.icache f).node with type := 0 } } } ((f, d) :: l) :=
        ⟨hl.count, hl.number⟩
      exact hl'.drop (by rw [href]) hcnum
    · show (dnode (putNode disk { emptied (s.icache f).node with type := 0 }) d).type = 0
      rw [dnode_putNode, nodesWith, ← hinum]
      exact congrArg Dinode.type (Function.update_self (s.icache f).node.inum _ (dnode disk))
    · intro j hj hne
      show dnode (putNode disk { emptied (s.icache f).node with type := 0 }) j = _
      rw [← hinum] at hne
      rw [dnode_putNode, nodesWith]
      exact (Function.update_of_ne hne _ _).trans (htr.others j hj hne)
    · intro j hj hne ht
      rw [← hinum] at hne
      have hsame := htr.others j hj hne
      have hput : SameFile disk (putNode disk { emptied (s.icache f).node with type := 0 }) (dnode disk j) :=
        SameFile.putNode htr.consistent.ledger hj (by rwa [hsame]) (Superblock.inodeBlock_iblock hnum)
      rw [hsame] at hput
      exact (htr.sameFile hh hj hne ht).trans hput
  · rw [iput_ok hdrop] at hrun
    cases hrun
    refine ⟨?_, hl.drop rfl rfl, .inl rfl⟩
    exact h.set (fun _ => ⟨hl.ref_pos, rfl⟩) fun _ hv => h.synced f hl.ref_pos hv

end Giving

/-! ## The front of a directory -/

/-- A directory that may have holes behind its last entry. -/
structure Front (disk : Nat → Sector) (n : Dinode) : Prop where
  bound : n.size.toNat ≤ maxfile * bsize
  table : ∃ z : UInt32, z.toNat ≤ n.size.toNat ∧ Table disk { n with size := z }

section Fronts

variable {sb : Superblock} {disk disk' : Nat → Sector} {n : Dinode} {name : List UInt8} {k : Nat}

theorem SameFile.front (h : SameFile disk disk' n) (hf : Front disk n) : Front disk' n := by
  obtain ⟨z, hle, ht⟩ := hf.table
  have hz : SameFile disk disk' { n with size := z } := ⟨h.word, h.block⟩
  exact ⟨hf.bound, z, hle, hz.table ht⟩

theorem indexOf_resize (disk : Nat → Sector) (n : Dinode) (z : UInt32) (name : List UInt8) :
    indexOf disk { n with size := z } name = indexOf disk n name := by
  unfold indexOf indexAmong
  rfl

/-- `dirlookup` of a name that is there stops before the holes. -/
theorem dirlookup_front {s : Kernel} {dp : Slot} (hbusy : s.bufs.busy = [])
    (h : Front s.bufs.disk (s.icache dp).node.toDinode) (htype : (s.icache dp).node.type = tDir)
    (hzero : 0 ∉ name)
    (hindex : indexOf s.bufs.disk (s.icache dp).node.toDinode (name.take 14) = some k) :
    dirlookup dp name s = (iget (entryAt s.bufs.disk (s.icache dp).node.toDinode k).inum.toNat s).map
      fun r => (some (r.1, 16 * k), r.2) := by
  obtain ⟨z, hle, ht⟩ := h.table
  have hbound : z.toNat ≤ maxfile * bsize := ht.bound
  have hbns : ∀ bn ∈ List.range ((z.toNat + (bsize - 1)) / bsize),
      bn < maxfile ∧ (s.icache dp).node.addr s.bufs.disk (blockPlace bn) ≠ 0 := by
    intro bn hbn
    have hlt := List.mem_range.mp hbn
    refine ⟨?_, ht.mapped bn hlt⟩
    simp only [maxfile, bsize] at hbound hlt ⊢
    omega
  -- the loop goes on to the holes, but the name is found before
  have hblocks : ((s.icache dp).node.size.toNat + (bsize - 1)) / bsize = (z.toNat + (bsize - 1)) / bsize +
      (((s.icache dp).node.size.toNat + (bsize - 1)) / bsize - (z.toNat + (bsize - 1)) / bsize) := by
    have := Nat.div_le_div_right (c := bsize) (Nat.add_le_add_right hle (bsize - 1))
    omega
  have hentry := @Table.blockEntry_eq s.bufs.disk { (s.icache dp).node with size := z } name ht hzero
  have hfound : (List.range ((z.toNat + (bsize - 1)) / bsize)).findSome?
      (blockEntry s.bufs.disk (s.icache dp).node name) =
        some ((entryAt s.bufs.disk (s.icache dp).node.toDinode k).inum, 16 * k) := by
    refine hentry.trans ?_
    have hk := (indexOf_resize s.bufs.disk (s.icache dp).node.toDinode z _).trans hindex
    exact congrArg (Option.map fun k => ((entryAt s.bufs.disk (s.icache dp).node.toDinode k).inum, 16 * k)) hk
  have hloop : dirlookupLoop name (s.icache dp).node
      (List.range (((s.icache dp).node.size.toNat + (bsize - 1)) / bsize)) s.bufs =
        .ok ((some ((entryAt s.bufs.disk (s.icache dp).node.toDinode k).inum, 16 * k), (s.icache dp).node),
          s.bufs) := by
    rw [hblocks, List.range_add, dirlookupLoop_append hbusy _ name hbns, hfound]
  have hsame : ({ s with bufs := s.bufs } : Kernel).set dp
      { s.icache dp with node := (s.icache dp).node } = s := by
    simp [Kernel.set]
  have hlook : look (fun s : Kernel => s.icache dp) s = .ok (s.icache dp, s) := rfl
  unfold dirlookup
  rw [bind_of_ok hlook, if_neg (not_not.mpr htype), bind_of_ok (withNode_ok hloop), hsame]
  simp only
  cases hget : iget (entryAt s.bufs.disk (s.icache dp).node.toDinode k).inum.toNat s with
  | error e =>
      rw [bind_of_error hget]
      rfl
  | ok r =>
      rw [bind_of_ok hget]
      rfl

/-- An entry in use has been erased, and no other entry has changed. -/
structure Erased (sb : Superblock) (disk : Nat → Sector) (d : Inode) (k : Nat) (disk' : Nat → Sector)
    (d' : Inode) : Prop where
  written : Written sb disk d disk' d'
  nlink : d'.nlink = d.nlink
  front : Front disk' d'.toDinode
  zero : (entryAt disk' d'.toDinode k).inum = 0
  others : ∀ j, j < maxentries → j ≠ k → entryAt disk' d'.toDinode j = entryAt disk d.toDinode j

/-- The `writei` of `sys_unlink` -/
theorem writei_erased {s t : Bufs} {ip node : Inode} {dev : Devsw} (hcons : Consistent sb s.disk)
    (hbusy : s.busy = []) (hnum : ip.inum < sb.ninodes.toNat) (hsync : dnode s.disk ip.inum = ip.toDinode)
    (hdir : ip.type = tDir) (h : Front s.disk ip.toDinode) (hk : k < maxentries)
    (hused : (entryAt s.disk ip.toDinode k).inum ≠ 0)
    (hrun : writei dev ip (List.replicate 16 0) (UInt32.ofNat (16 * k)) 16 s = .ok ((16, node), t)) :
    t.busy = [] ∧ Erased sb s.disk ip k t.disk node := by
  have hkbound : 16 * k < 2 ^ 32 := by
    simp only [maxentries, maxfile] at hk
    omega
  obtain ⟨hidle, hwritten, hnlink, hlast, _, hsize, hstored⟩ :=
    writei_entry_stored hcons hbusy hnum hsync hdir h.bound (by decide) hkbound hrun
  obtain ⟨z, hle, ht⟩ := h.table
  -- an entry in use lies before the holes
  have hin : 16 * k ≤ z.toNat := by
    by_contra hout
    exact hused (ht.inum_beyond hk (by show z.toNat ≤ 16 * k; omega))
  have hbound := h.bound
  refine ⟨hidle, hwritten, hnlink, ⟨?_, UInt32.ofNat (max z.toNat (16 * k + 16)), ?_, ?_⟩, ?_, ?_⟩
  · rw [hsize]
    simp only [maxentries, maxfile, bsize] at hlast hbound ⊢
    omega
  · rw [hsize, UInt32.toNat_ofNat']
    have := Nat.mod_le (max z.toNat (16 * k + 16)) (2 ^ 32)
    omega
  · refine hstored.table (by decide) hlast ht hin ?_
    have hz := z.toNat_lt
    simp only [maxentries, maxfile] at hlast
    rw [UInt32.toNat_ofNat', Nat.mod_eq_of_lt]
    omega
  · have h0 := hstored.entry_byte (by decide) hlast (by decide : 0 < 16)
    have h1 := hstored.entry_byte (by decide) hlast (by decide : 1 < 16)
    rw [entryAt, Dirent.decode]
    simp only [h0, h1]
    rfl
  · exact fun j hj hne => hstored.entryAt_other (by decide) hj hne

end Fronts

/-! ## A single directory -/

/-- The check of `sys_unlink` refuses no other name. -/
theorem not_namecmp_dots {name : List UInt8} (hshort : name.length ≤ 14) (hzero : 0 ∉ name)
    (h : ¬ IsDots name) : ¬ (namecmp name [46] = 0 ∨ namecmp name [46, 46] = 0) := by
  rw [namecmp_eq_zero hzero (by decide) (by decide), namecmp_eq_zero hzero (by decide) (by decide),
    List.take_of_length_le hshort]
  intro hc
  exact h (hc.imp Eq.symm Eq.symm)

/-- The root directory, which has one link, is the only directory; the other inodes are files, and the
root lists each of them at most once.  It has entries with these names. -/
structure Lone (sb : Superblock) (disk : Nat → Sector) (names : List (List UInt8)) : Prop where
  number : rootino < sb.ninodes.toNat
  type : (dnode disk rootino).type = tDir
  nlink : (dnode disk rootino).nlink = 1
  files : ∀ i, i < sb.ninodes.toNat → i ≠ rootino → (dnode disk i).type = 0 ∨ (dnode disk i).type = tFile
  front : Front disk (dnode disk rootino)
  target : ∀ k, k < maxentries → (entryAt disk (dnode disk rootino) k).inum ≠ 0 →
    Linked sb disk (entryAt disk (dnode disk rootino) k).inum.toNat
  dots : ∀ k, k < maxentries → (entryAt disk (dnode disk rootino) k).inum.toNat = rootino →
    (entryAt disk (dnode disk rootino) k).name = [46] ∨ (entryAt disk (dnode disk rootino) k).name = [46, 46]
  once : ∀ k j, k < maxentries → j < maxentries → k ≠ j →
    (entryAt disk (dnode disk rootino) k).inum ≠ 0 →
    (entryAt disk (dnode disk rootino) k).inum = (entryAt disk (dnode disk rootino) j).inum →
    (entryAt disk (dnode disk rootino) k).inum.toNat = rootino
  listed : ∀ name ∈ names, ∃ k, k < maxentries ∧ Named disk (dnode disk rootino) name k

/-- No entry of the root leads to inode `i`. -/
def Unlisted (disk : Nat → Sector) (i : Nat) : Prop :=
  ∀ k, k < maxentries → (entryAt disk (dnode disk rootino) k).inum ≠ 0 →
    (entryAt disk (dnode disk rootino) k).inum.toNat ≠ i

namespace Lone

variable {sb : Superblock} {disk disk' : Nat → Sector} {i d k : Nat} {node node' : Inode}
variable {name : List UInt8} {names : List (List UInt8)}

theorem eq_root (h : Lone sb disk names) (hd : d < sb.ninodes.toNat) (hdir : (dnode disk d).type = tDir) :
    d = rootino := by
  by_contra hne
  rcases h.files d hd hne with h0 | hfile
  · rw [hdir] at h0
    exact absurd h0 (by decide)
  · rw [hdir] at hfile
    exact absurd hfile (by decide)

theorem nlink_ne_zero (h : Lone sb disk names) : (dnode disk rootino).nlink ≠ 0 := by
  rw [h.nlink]
  decide

/-- Another inode changes, which the root does not list. -/
theorem other (h : Lone sb disk names) (hi : i ≠ rootino) (hfree : Unlisted disk i)
    (hothers : ∀ j, j < sb.ninodes.toNat → j ≠ i → dnode disk' j = dnode disk j)
    (hfile : SameFile disk disk' (dnode disk rootino))
    (htype : (dnode disk' i).type = 0 ∨ (dnode disk' i).type = tFile) : Lone sb disk' names := by
  have hroot : dnode disk' rootino = dnode disk rootino := hothers rootino h.number hi.symm
  have hentry : ∀ k, entryAt disk' (dnode disk' rootino) k = entryAt disk (dnode disk rootino) k := by
    intro k
    rw [hroot]
    exact hfile.entryAt_eq k
  refine ⟨h.number, by rw [hroot, h.type], by rw [hroot, h.nlink], ?_, ?_, ?_, ?_, ?_, ?_⟩
  · intro j hj hne
    by_cases hji : j = i
    · rw [hji]
      exact htype
    · rw [hothers j hj hji]
      exact h.files j hj hne
  · rw [hroot]
    exact hfile.front h.front
  · intro k hk hused
    rw [hentry] at hused ⊢
    obtain ⟨hnum, ht, hlink⟩ := h.target k hk hused
    have hsame := hothers _ hnum (hfree k hk hused)
    exact ⟨hnum, by rwa [hsame], by rwa [hsame]⟩
  · intro k hk
    rw [hentry]
    exact h.dots k hk
  · intro k j hk hj hne
    rw [hentry, hentry]
    exact h.once k j hk hj hne
  · intro name hname
    obtain ⟨k, hk, hnamed⟩ := h.listed name hname
    refine ⟨k, hk, ?_⟩
    rw [Named, hentry]
    exact hnamed

/-- The entry of a file is erased. -/
theorem erase (h : Lone sb disk (name :: names)) (hnew : name ∉ names) (hinum : node.inum = rootino)
    (hsync : node.toDinode = dnode disk rootino) (hnamed : Named disk (dnode disk rootino) name k)
    (hk : k < maxentries) (hi : (entryAt disk (dnode disk rootino) k).inum.toNat = i) (hroot : i ≠ rootino)
    (hw : Erased sb disk node k disk' node') : Lone sb disk' names ∧ Unlisted disk' i := by
  have hnode : dnode disk' rootino = node'.toDinode := by
    rw [← hinum]
    exact hw.written.node
  have hnlink : node'.nlink = node.nlink := hw.nlink
  have htype : node'.type = node.type := hw.written.type
  have hsame : ∀ j, j < sb.ninodes.toNat → j ≠ rootino → dnode disk' j = dnode disk j := by
    intro j hj hne
    exact hw.written.others j hj (by rwa [hinum])
  have hzero : (entryAt disk' (dnode disk' rootino) k).inum = 0 := by
    rw [hnode]
    exact hw.zero
  have hothers : ∀ j, j < maxentries → j ≠ k →
      entryAt disk' (dnode disk' rootino) j = entryAt disk (dnode disk rootino) j := by
    intro j hj hne
    rw [hnode, hw.others j hj hne, hsync]
  have hold : ∀ j, j < maxentries → (entryAt disk' (dnode disk' rootino) j).inum ≠ 0 →
      j ≠ k ∧ entryAt disk' (dnode disk' rootino) j = entryAt disk (dnode disk rootino) j := by
    intro j hj hne
    have hjk : j ≠ k := by
      rintro rfl
      exact hne hzero
    exact ⟨hjk, hothers j hj hjk⟩
  have hne0 : ∀ j, (entryAt disk' (dnode disk' rootino) j).inum.toNat = rootino →
      (entryAt disk' (dnode disk' rootino) j).inum ≠ 0 := by
    intro j hj h0
    rw [h0] at hj
    exact absurd hj (by decide)
  refine ⟨⟨h.number, ?_, ?_, ?_, ?_, ?_, ?_, ?_, ?_⟩, ?_⟩
  · rw [hnode]
    exact htype.trans ((congrArg Dinode.type hsync).trans h.type)
  · rw [hnode]
    exact hnlink.trans ((congrArg Dinode.nlink hsync).trans h.nlink)
  · intro j hj hne
    rw [hsame j hj hne]
    exact h.files j hj hne
  · rw [hnode]
    exact hw.front
  · intro j hj hne
    obtain ⟨-, heq⟩ := hold j hj hne
    rw [heq] at hne ⊢
    obtain ⟨hnum, ht, hlink⟩ := h.target j hj hne
    by_cases hjr : (entryAt disk (dnode disk rootino) j).inum.toNat = rootino
    · rw [hjr, Linked, hnode]
      refine ⟨h.number, ?_, ?_⟩
      · show node'.type ≠ 0
        rw [htype, congrArg Dinode.type hsync, h.type]
        decide
      · show node'.nlink ≠ 0
        rw [hnlink, congrArg Dinode.nlink hsync]
        exact h.nlink_ne_zero
    · rw [Linked, hsame _ hnum hjr]
      exact ⟨hnum, ht, hlink⟩
  · intro j hj hjr
    obtain ⟨-, heq⟩ := hold j hj (hne0 j hjr)
    rw [heq] at hjr ⊢
    exact h.dots j hj hjr
  · intro a b ha hb hab hne heq
    obtain ⟨-, hea⟩ := hold a ha hne
    obtain ⟨-, heb⟩ := hold b hb (by rwa [← heq])
    rw [hea] at hne
    rw [hea, heb] at heq
    rw [hea]
    exact h.once a b ha hb hab hne heq
  · intro x hx
    obtain ⟨j, hj, hat⟩ := h.listed x (List.mem_cons_of_mem _ hx)
    have hjk : j ≠ k := by
      rintro rfl
      exact hnew (hnamed.2.symm.trans hat.2 ▸ hx)
    refine ⟨j, hj, ?_⟩
    rw [Named, hothers j hj hjk]
    exact hat
  · intro j hj hne hji
    obtain ⟨hjk, heq⟩ := hold j hj hne
    rw [heq] at hne hji
    have hsamenum : (entryAt disk (dnode disk rootino) j).inum =
        (entryAt disk (dnode disk rootino) k).inum := UInt16.toNat_inj.mp (hji.trans hi.symm)
    exact hroot (hji.symm.trans (h.once j k hj hk hjk hne hsamenum))

/-- `dirlookup` finds a name that is listed. -/
theorem index (h : Lone sb disk (name :: names)) : ∃ k, k < maxentries ∧
    Named disk (dnode disk rootino) name k ∧ indexOf disk (dnode disk rootino) name = some k := by
  cases hindex : indexOf disk (dnode disk rootino) name with
  | none =>
      obtain ⟨k, hk, hnamed⟩ := h.listed name List.mem_cons_self
      exact absurd hnamed (indexOf_eq_none.mp hindex k hk)
  | some k =>
      obtain ⟨hk, hnamed, _⟩ := indexOf_eq_some.mp hindex
      exact ⟨k, hk, hnamed, rfl⟩

end Lone

section Unlink

variable {sb : Superblock} {s t : Kernel} {dev : Devsw} {cwd dp ip : Slot} {d i off : Nat}
variable {path name : List UInt8} {names : List (List UInt8)} {l : List (Slot × Nat)} {r : Int32}

/-- `iunlockput`, also of the last reference to an inode without links. -/
theorem iunlockput_free {x : Unit} (h : Accounted sb s) (hl : Holds s ((ip, d) :: l))
    (hplain : (dnode s.bufs.disk d).type ≠ tChecked) (hrun : iunlockput ip s = .ok (x, t)) :
    Accounted sb t ∧ Holds t l ∧ (t.bufs.disk = s.bufs.disk ∨ Freed sb s.bufs.disk d t.bufs.disk) := by
  unfold iunlockput at hrun
  obtain ⟨_, u, hunlock, hput⟩ := bind_eq_ok hrun
  obtain ⟨hu, hul⟩ := iunlock_run h hl hunlock
  rw [← hu.bufs] at hplain ⊢
  exact iput_free hu.accounted hul hplain hput

/-- The last part of `sys_unlink`: a file that the root does not list any more loses a link. -/
theorem dropLink_run {x : Unit} (h : Accounted sb s) (hf : Lone sb s.bufs.disk names)
    (hl : Holds s ((ip, i) :: l)) (hv : (s.icache ip).valid = true) (hi : i ≠ rootino) (hfree : Unlisted s.bufs.disk i)
    (hrun : (do
      withNode ip fun node => do
        let node := { node with nlink := node.nlink - 1 }
        iupdate node
        return ((), node)
      iunlockput ip) s = .ok (x, t)) :
    Accounted sb t ∧ Lone sb t.bufs.disk names ∧ Holds t l := by
  obtain ⟨_, u, hwith, hput⟩ := bind_eq_ok hrun
  obtain ⟨node, bufs, hx, hu⟩ := withNode_eq_ok hwith
  have hinum := hl.head
  obtain ⟨hsync, htype⟩ := h.synced ip hl.ref_pos hv
  have hnum := h.number ip hl.ref_pos
  simp only at hx
  rw [bind_of_ok (iupdate_ok h.idle)] at hx
  cases hx
  have hw : Written sb s.bufs.disk (s.icache ip).node _
      { (s.icache ip).node with nlink := (s.icache ip).node.nlink - 1 } :=
    h.consistent.iupdate_written hnum htype hsync.symm rfl rfl rfl
  have hacc : Accounted sb u := by
    rw [hu]
    exact h.modify hl.ref_pos hv ⟨putNode s.bufs.disk
      { (s.icache ip).node with nlink := (s.icache ip).node.nlink - 1 }, s.bufs.busy⟩ h.idle hw
  have hul : Holds u ((ip, i) :: l) := by
    rw [hu]
    have hl' : Holds ⟨⟨putNode s.bufs.disk
        { (s.icache ip).node with nlink := (s.icache ip).node.nlink - 1 }, s.bufs.busy⟩, s.icache⟩
        ((ip, i) :: l) := ⟨hl.count, hl.number⟩
    exact hl'.set le_rfl rfl
  have hdisk : u.bufs.disk = putNode s.bufs.disk
      { (s.icache ip).node with nlink := (s.icache ip).node.nlink - 1 } := by rw [hu, Kernel.set_bufs]
  have hnum' : i < sb.ninodes.toNat := by rwa [hinum] at hnum
  have htype' : (dnode u.bufs.disk i).type = (dnode s.bufs.disk i).type := by
    rw [hdisk, ← hinum, hw.node, ← hsync]
  have hfile : (dnode s.bufs.disk i).type = tFile := by
    refine (hf.files i hnum' hi).resolve_left ?_
    rw [← hinum, ← hsync]
    exact htype
  have hroot : (dnode s.bufs.disk rootino).type ≠ 0 := by
    rw [hf.type]
    decide
  have hothers : ∀ j, j < sb.ninodes.toNat → j ≠ i → dnode u.bufs.disk j = dnode s.bufs.disk j := by
    intro j hj hne
    rw [hdisk]
    exact hw.others j hj (by rwa [hinum])
  have hsame : SameFile s.bufs.disk u.bufs.disk (dnode s.bufs.disk rootino) := by
    rw [hdisk]
    exact hw.files rootino hf.number (by rw [hinum]; exact hi.symm) hroot
  have hlone : Lone sb u.bufs.disk names :=
    hf.other hi hfree hothers hsame (.inr (htype'.trans hfile))
  have hroot' := hothers rootino hf.number hi.symm
  have hfree' : Unlisted u.bufs.disk i := by
    intro k hk
    rw [hroot', hsame.entryAt_eq]
    exact hfree k hk
  have hplain : (dnode u.bufs.disk i).type ≠ tChecked := by
    rw [htype', hfile]
    decide
  obtain ⟨ht, htl, hend | hend⟩ := iunlockput_free hacc hul hplain hput
  · exact ⟨ht, by rwa [hend], htl⟩
  · refine ⟨ht, hlone.other hi hfree' hend.others ?_ (.inl hend.node), htl⟩
    exact hend.files rootino hf.number hi.symm (by rw [hlone.type]; decide)

/-- `sys_unlink` erases the entry of a file: the root stays the only directory, with one link. -/
theorem eraseEntry_run {k : Nat} {ret : Int32} (h : Accounted sb s) (hf : Lone sb s.bufs.disk (name :: names))
    (hnew : name ∉ names) (hl : Holds s ((dp, rootino) :: (ip, i) :: l)) (hv : (s.icache dp).valid = true)
    (hk : k < maxentries) (hnamed : Named s.bufs.disk (dnode s.bufs.disk rootino) name k)
    (hi : (entryAt s.bufs.disk (dnode s.bufs.disk rootino) k).inum.toNat = i) (hne : i ≠ rootino)
    (hrun : (withNode dp fun node =>
      writei dev node (List.replicate 16 0) (UInt32.ofNat (16 * k)) 16) s = .ok (ret, t)) (hret : ret = 16) :
    Accounted sb t ∧ Lone sb t.bufs.disk names ∧ Unlisted t.bufs.disk i ∧
      Holds t ((dp, rootino) :: (ip, i) :: l) ∧ (t.icache dp).node.nlink ≠ 0 ∧
      ∀ j, j ≠ dp → t.icache j = s.icache j := by
  obtain ⟨node, bufs, hx, rfl⟩ := withNode_eq_ok hrun
  have hinum : (s.icache dp).node.inum = rootino := hl.head
  obtain ⟨hsync, htype⟩ := h.synced dp hl.ref_pos hv
  rw [hinum] at hsync
  have hdir : (s.icache dp).node.type = tDir := (congrArg Dinode.type hsync).trans hf.type
  rw [hret] at hx
  obtain ⟨hidle, hw⟩ := writei_erased h.consistent h.idle (h.number dp hl.ref_pos)
    (by rw [hinum]; exact hsync.symm) hdir (by rw [hsync]; exact hf.front) hk
    (by rw [hsync]; exact hnamed.1) hx
  obtain ⟨hlone, hfree⟩ := hf.erase hnew hinum hsync hnamed hk hi hne hw
  refine ⟨h.modify hl.ref_pos hv bufs hidle hw.written, hlone, hfree, ?_, ?_, ?_⟩
  · have hl' : Holds { s with bufs := bufs } ((dp, rootino) :: (ip, i) :: l) := ⟨hl.count, hl.number⟩
    exact hl'.set le_rfl hw.written.inum
  · rw [Kernel.set_icache_self]
    show node.nlink ≠ 0
    rw [hw.nlink, congrArg Dinode.nlink hsync]
    exact hf.nlink_ne_zero
  · intro j hj
    rw [Kernel.set_icache, if_neg hj]

/-- The parent of a path with one element is the root. -/
theorem namex_top {res : Option (Slot × List UInt8)} (h : Accounted sb s) (hnum : rootino < sb.ninodes.toNat)
    (hdir : (dnode s.bufs.disk rootino).type = tDir) (hl : Holds s l) (hslash : path.head? = some slash)
    (helems : elems path.length path = [name]) (hrun : namex cwd path true s = .ok (res, t)) :
    ∃ dp, res = some (dp, name) ∧ Accounted sb t ∧ t.bufs = s.bufs ∧ Holds t ((dp, rootino) :: l) := by
  unfold namex at hrun
  rw [helems] at hrun
  obtain ⟨dp, u, hstart, hloop⟩ := bind_eq_ok hrun
  rw [namexStart, if_pos hslash] at hstart
  obtain ⟨hu, hul⟩ := iget_run h hl hnum hstart
  unfold namexLoop at hloop
  obtain ⟨_, s₁, hlock, hrest⟩ := bind_eq_ok hloop
  obtain ⟨hs₁, hl₁, hv₁, hnode, _⟩ := ilock_run hu.accounted hul hlock
  obtain ⟨c, v, hlook, hrest⟩ := bind_eq_ok hrest
  obtain ⟨rfl, rfl⟩ := look_eq_ok hlook
  have htype : (s₁.icache dp).node.type = tDir := by
    rw [congrArg Dinode.type hnode, hu.bufs]
    exact hdir
  rw [if_neg (not_not.mpr htype), if_pos ⟨rfl, rfl⟩] at hrest
  obtain ⟨_, v, hunlock, hpure⟩ := bind_eq_ok hrest
  cases hpure
  obtain ⟨hv, hvl⟩ := iunlock_run hs₁.accounted hl₁ hunlock
  exact ⟨dp, rfl, hv.accounted, hv.bufs.trans (hs₁.bufs.trans hu.bufs), hvl⟩

/-- The `dirlookup` of `sys_unlink` finds the entry of a file. -/
theorem Lone.lookup {found : Option (Slot × Nat)} (hf : Lone sb s.bufs.disk (name :: names))
    (h : Accounted sb s) (hnode : (s.icache dp).node.toDinode = dnode s.bufs.disk rootino)
    (hshort : name.length ≤ 14) (hzero : 0 ∉ name) (hplain : ¬ IsDots name)
    (hrun : dirlookup dp name s = .ok (found, t)) :
    ∃ k i ip, found = some (ip, 16 * k) ∧ k < maxentries ∧
      Named s.bufs.disk (dnode s.bufs.disk rootino) name k ∧
      (entryAt s.bufs.disk (dnode s.bufs.disk rootino) k).inum.toNat = i ∧ i ≠ rootino ∧
      iget i s = .ok (ip, t) := by
  obtain ⟨k, hk, hnamed, hindex⟩ := hf.index
  rw [dirlookup_front h.idle (by rw [hnode]; exact hf.front)
    ((congrArg Dinode.type hnode).trans hf.type) hzero
    (by rw [List.take_of_length_le hshort, hnode]; exact hindex), hnode] at hrun
  have hne : (entryAt s.bufs.disk (dnode s.bufs.disk rootino) k).inum.toNat ≠ rootino := by
    intro hroot
    exact hplain (hnamed.2 ▸ hf.dots k hk hroot)
  cases hget : iget (entryAt s.bufs.disk (dnode s.bufs.disk rootino) k).inum.toNat s with
  | error e =>
      rw [hget] at hrun
      cases hrun
  | ok r =>
      rw [hget] at hrun
      cases hrun
      exact ⟨k, _, r.1, rfl, hk, hnamed, rfl, hne, hget⟩

/-- **One `sys_unlink`** of a file in the root.  The root stays the only directory, with one link. -/
theorem sysUnlink_run (h : Accounted sb s) (hf : Lone sb s.bufs.disk (name :: names)) (hnew : name ∉ names)
    (hl : Holds s l) (hslash : path.head? = some slash) (helems : elems path.length path = [name])
    (hzero : 0 ∉ name) (hplain : ¬ IsDots name) (hrun : sysUnlink dev cwd path s = .ok (r, t)) :
    Accounted sb t ∧ Lone sb t.bufs.disk names ∧ Holds t l := by
  have hshort : name.length ≤ 14 := by
    have hmem : name ∈ elems path.length path := by
      rw [helems]
      exact List.mem_cons_self
    exact (mem_elems hmem).1
  unfold sysUnlink at hrun
  obtain ⟨found, s₁, hnamex, hrun⟩ := bind_eq_ok hrun
  obtain ⟨dp, rfl, hs₁, hbufs₁, hl₁⟩ := namex_top h hf.number hf.type hl hslash helems hnamex
  rw [← hbufs₁] at hf
  simp only at hrun
  obtain ⟨_, s₂, hlock, hrun⟩ := bind_eq_ok hrun
  obtain ⟨hs₂, hl₂, hv₂, hnode₂, _⟩ := ilock_run hs₁ hl₁ hlock
  rw [← hs₂.bufs] at hf hnode₂
  split at hrun
  · -- the name is neither `.` nor `..`
    rename_i hdots
    exact absurd hdots (not_namecmp_dots hshort hzero hplain)
  obtain ⟨found, s₃, hlook, hrun⟩ := bind_eq_ok hrun
  obtain ⟨k, i, ip, rfl, hk, hnamed, hi, hne, hget⟩ :=
    hf.lookup hs₂.accounted hnode₂ hshort hzero hplain hlook
  simp only at hrun
  have hlinked := hf.target k hk hnamed.1
  rw [hi] at hlinked
  obtain ⟨hs₃, hl₃⟩ := iget_run hs₂.accounted hl₂ hlinked.1 hget
  obtain ⟨_, s₄, hlock', hrun⟩ := bind_eq_ok hrun
  obtain ⟨hs₄, hl₄, hv₄, hnode₄, _⟩ := ilock_run hs₃.accounted hl₃ hlock'
  have hbufs₄ : s₄.bufs = s₂.bufs := hs₄.bufs.trans hs₃.bufs
  obtain ⟨c, s₅, hlook', hrun⟩ := bind_eq_ok hrun
  obtain ⟨rfl, rfl⟩ := look_eq_ok hlook'
  rw [← hbufs₄] at hf hnamed hi
  have hfile : (s₄.icache ip).node.type ≠ tDir := by
    intro hdir'
    rw [congrArg Dinode.type hnode₄, hs₃.bufs, ← hbufs₄] at hdir'
    exact hne (hf.eq_root hlinked.1 hdir')
  have hdp : (s₄.icache dp).valid = true := by
    obtain ⟨hv₃, _⟩ := hs₃.stays dp hl₂.ref_pos hv₂
    exact (hs₄.stays dp hl₃.tail.ref_pos hv₃).1
  -- no branch for directories is taken
  split at hrun
  · cases hrun
  obtain ⟨e, s₅, hpure, hrun⟩ := bind_eq_ok hrun
  cases hpure
  simp only [Bool.true_eq_false, if_false] at hrun
  obtain ⟨ret, s₆, hwrite, hrun⟩ := bind_eq_ok hrun
  split at hrun
  · cases hrun
  rename_i hret
  obtain ⟨hs₆, hf₆, hfree, hl₆, hkeep, hsame⟩ := eraseEntry_run hs₄.accounted hf hnew hl₄.swap hdp hk
    hnamed hi hne hwrite (not_not.mp hret)
  obtain ⟨_, s₈, hput, hrun⟩ := bind_eq_ok hrun
  obtain ⟨hs₈, hl₈⟩ := iunlockput_run hs₆ hl₆ (.inl hkeep) hput
  have hslot : ip ≠ dp := by
    rintro rfl
    exact hne (hl₄.head.symm.trans hl₄.tail.head)
  have hv₆ : (s₆.icache ip).valid = true := by
    rw [hsame ip hslot]
    exact hv₄
  have hv₈ := (hs₈.stays ip hl₆.tail.ref_pos hv₆).1
  rw [← hs₈.bufs] at hf₆ hfree
  obtain ⟨_, s₉, hwith, hrun⟩ := bind_eq_ok hrun
  obtain ⟨x, s₁₀, hlast, hpure⟩ := bind_eq_ok hrun
  cases hpure
  exact dropLink_run hs₈.accounted hf₆ hl₈ hv₈ hne hfree ((bind_of_ok hwith).trans hlast)

end Unlink

end Xv6
end LfsXv6
