import LfsXv6.Linux.Refinement
import LfsXv6.Linux.Slots

/-!
# Update — the single-inode changes that `creat_server` and `unlink_server` are made of

Each section treats one change: rewriting the inode block as it was, replacing a directory block,
giving a number to a new inode, taking a number away.  Every one keeps `WF` by the update rule and
changes the abstract file system at one inode number.
-/

namespace LfsXv6
namespace Linux

open Lib

section Blocks

variable {s : Server} {p : Int32}

/-! ## Rewriting the inode block as it was -/

/-- `write(fd, &parent, BLOCKSIZE)` on an inode that did not change. -/
def rewriteInode (s : Server) (p : Int32) (past : Mem) : Server :=
  { s with file := s.file.pwrite ⟨blk (s.imap p) * 4096, 4096, parentMem (s.inode p) past⟩ }

theorem rewriteInode_inode (past : Mem) : (rewriteInode s p past).inode p = s.inode p :=
  inodeAt_pwrite_self (by omega) fun _ ho => if_pos ho

theorem WF.rewriteInode_same (h : WF s) (ha : s.Allocated p) {x : Int32} (hx : s.Owns p x)
    (hne : x ≠ s.imap p) (past : Mem) : SameBlock (rewriteInode s p past).file s.file x := by
  have hx0 := (h.node p ha).owned x hx
  have hp0 := (h.node p ha).owned _ (NodeWF.owns_inode ha)
  exact sameBlock_pwrite_ne (Nat.le_refl _)
    fun hc => hne (blk_inj (by omega) (by omega) hc.symm)

theorem WF.writeOK_inode (ha : s.Allocated p) {len : Nat} (hlen : len ≤ 4096) (m : Mem) :
    WriteOK s p { off := blk (s.imap p) * 4096, len := len, data := m } :=
  Or.inr ⟨_, rfl, hlen, Or.inl ⟨_, NodeWF.owns_inode ha, rfl⟩⟩

theorem WF.writeOK_block (ha : s.Allocated p) {k : Fin 14} (hk : (s.inode p).dpUsed k = 1) {len : Nat}
    (hlen : len ≤ 4096) (m : Mem) :
    WriteOK s p { off := blk ((s.inode p).dpointers k) * 4096, len := len, data := m } :=
  Or.inr ⟨_, rfl, hlen, Or.inl ⟨_, NodeWF.owns_block ha hk, rfl⟩⟩

/-- A write call inside one block past the end of the log. -/
def PastLog (s : Server) (w : WriteCall) : Prop :=
  ∃ b : Nat, w.off = b * 4096 ∧ w.len ≤ 4096 ∧ s.nextBlock.toInt ≤ b

theorem PastLog.writeOK {w : WriteCall} (h : PastLog s w) (t : Int32) : WriteOK s t w := by
  obtain ⟨b, hoff, hlen, hb⟩ := h
  exact Or.inr ⟨b, hoff, hlen, Or.inr hb⟩

theorem WF.inLog_past (h : WF s) {w : WriteCall} (hw : PastLog s w) : InLog w := by
  obtain ⟨b, hoff, _, hb⟩ := hw
  have hsix := h.next
  simp only [InLog, crSize]
  omega

theorem PastLog.mono {u : Server} {w : WriteCall} (hw : PastLog u w)
    (h : s.nextBlock.toInt ≤ u.nextBlock.toInt) : PastLog s w := by
  obtain ⟨b, hoff, hlen, hb⟩ := hw
  exact ⟨b, hoff, hlen, by omega⟩

theorem WF.inLog_owned (h : WF s) {x : Int32} (hx : s.Owns p x) (len : Nat) (m : Mem) :
    InLog { off := blk x * 4096, len := len, data := m } := by
  have hx0 := (h.node p hx.1).owned x hx
  have hblk := blk_eq (x := x) (by omega)
  simp only [InLog, crSize]
  omega

theorem WF.rewriteInode_wf (h : WF s) (ha : s.Allocated p) (past : Mem) :
    WF (rewriteInode s p past) ∧ (rewriteInode s p past).tree = s.tree := by
  have hn := h.node p ha
  obtain ⟨hnode, htree⟩ := hn.frame (u := rewriteInode s p past) ha rfl (Int.le_refl _)
    File.size_le_pwrite (rewriteInode_inode past) fun k hk =>
      h.rewriteInode_same ha (NodeWF.owns_block ha hk) (hn.apart k hk) past
  have hown : ∀ x, (rewriteInode s p past).Owns p x → s.Owns p x ∨ s.nextBlock.toInt ≤ x.toInt := by
    intro x hx
    rw [Server.Owns, rewriteInode_inode] at hx
    exact Or.inl hx
  obtain ⟨hwf, hrest⟩ := h.update (u := rewriteInode s p past) (t := p) (p := _)
    (l := [⟨blk (s.imap p) * 4096, 4096, parentMem (s.inode p) past⟩]) (File.seekTo_self _).symm
    (by simpa using WF.writeOK_inode ha (Nat.le_refl _) _) (fun _ _ => rfl) (Int.le_refl _) h.bounded
    (fun _ => ⟨h.inRange p ha, hnode⟩) hown
  refine ⟨hwf, ?_⟩
  rw [hrest, tree_of_allocated (s := rewriteInode s p past) ha, htree, ← tree_of_allocated ha,
    Function.update_eq_self]

/-! ## Replacing a directory block -/

/-- The server after `d` was written to direct block `k` of directory `p`. -/
def putBlock (s : Server) (p : Int32) (k : Fin 14) (d : Directory) : Server :=
  { s with file := s.file.pwrite ⟨blk ((s.inode p).dpointers k) * 4096, 4096, d.encode⟩ }

/-- The slots of a directory with block `k` replaced. -/
def slotsWith (f : File) (n : Inode) (bs : List (Fin 14)) (k : Fin 14) (d : Directory) :
    List DirSlot :=
  bs.flatMap fun j => if j = k then d.slots else (dirAt f (n.dpointers j)).slots

section Replace

variable {k : Fin 14} {d : Directory} {u : Server} {l : List WriteCall} {q : Nat}

/-- Writes to direct block `k` leave the other blocks of the directory alone. -/
theorem WF.replace_same (h : WF s) (hk : (s.inode p).dpUsed k = 1)
    (hws : ∀ w ∈ l, w.off = blk ((s.inode p).dpointers k) * 4096 ∧ w.len ≤ 4096) {x : Int32}
    (hx : s.Owns p x) (hne : x ≠ (s.inode p).dpointers k) : SameBlock (s.file.pwrites l) s.file x := by
  have hx0 := (h.node p hx.1).owned x hx
  have hk0 := (h.node p hx.1).owned _ (NodeWF.owns_block hx.1 hk)
  have hblk : blk x ≠ blk ((s.inode p).dpointers k) :=
    fun hc => hne (blk_inj (by omega) (by omega) hc)
  intro o ho
  refine File.pwrites_byte_of_forall ?_
  intro w hw
  have := hws w hw
  omega

/-- **Replacement rule.**  Any series of writes to one direct block of a directory that leaves a
well-formed directory block behind replaces that block and nothing else. -/
theorem WF.replace (h : WF s) (ha : s.Allocated p) (hdir : (s.inode p).type = mfsDirectory)
    (hk : (s.inode p).dpUsed k = 1) (himap : u.imap = s.imap) (hnext : u.nextBlock = s.nextBlock)
    (hfile : u.file = (s.file.pwrites l).seekTo q)
    (hws : ∀ w ∈ l, w.off = blk ((s.inode p).dpointers k) * 4096 ∧ w.len ≤ 4096)
    (hat : dirAt (s.file.pwrites l) ((s.inode p).dpointers k) = d) (hd : ∀ e, d.SlotOK e) :
    WF u ∧ u.tree = Function.update s.tree p
      (some (.dir (slotsWith s.file (s.inode p) (firstBlocks (s.inode p).nblocks) k d))) := by
  have hn := h.node p ha
  have hshape := hn.dir hdir
  have hinode : u.inode p = s.inode p := by
    rw [Server.inode, himap, hfile]
    exact (h.replace_same hk hws (NodeWF.owns_inode ha) (Ne.symm (hn.apart k hk))).inodeAt
  have hdirAt : ∀ j, (s.inode p).dpUsed j = 1 → dirAt u.file ((s.inode p).dpointers j) =
      if j = k then d else dirAt s.file ((s.inode p).dpointers j) := by
    intro j hj
    rw [hfile]
    by_cases hjk : j = k
    · rw [if_pos hjk, hjk]
      exact hat
    · rw [if_neg hjk]
      exact (h.replace_same hk hws (NodeWF.owns_block ha hj)
        (fun hc => hjk (hn.inj j k hj hk hc))).dirAt
  have halloc : u.Allocated p := by
    rw [Server.Allocated, himap]
    exact ha
  have hnode : NodeWF u p := by
    refine hn.of_inode_eq ha (by rw [himap]) (by rw [hnext]) ?_ hinode fun _ => ?_
    · rw [hfile]
      exact File.size_le_pwrites
    · refine { hshape with slot_ok := ?_ }
      intro j hj e
      rw [hdirAt j hj]
      by_cases hjk : j = k
      · rw [if_pos hjk]
        exact hd e
      · rw [if_neg hjk]
        exact hshape.slot_ok j hj e
  have hown : ∀ x, u.Owns p x → s.Owns p x ∨ s.nextBlock.toInt ≤ x.toInt := by
    intro x hx
    rw [Server.Owns, hinode, himap] at hx
    exact Or.inl ⟨ha, hx.2⟩
  have hok : ∀ w ∈ l, WriteOK s p w := fun w hw =>
    Or.inr ⟨_, (hws w hw).1, (hws w hw).2, Or.inl ⟨_, NodeWF.owns_block ha hk, rfl⟩⟩
  obtain ⟨hwf, htree⟩ := h.update (u := u) (t := p) hfile hok (fun _ _ => by rw [himap])
    (by rw [hnext]) (by rw [Server.Bounded, hnext]; exact h.bounded)
    (fun _ => ⟨h.inRange p ha, hnode⟩) hown
  refine ⟨hwf, ?_⟩
  rw [htree, tree_of_allocated halloc, nodeOf, hinode, if_pos hdir]
  congr 3
  refine List.flatMap_congr ?_
  intro j hj
  rw [hdirAt j ((hshape.used_iff j).mpr (mem_firstBlocks.mp hj)), apply_ite Directory.slots]

theorem WF.putBlock_wf (h : WF s) (ha : s.Allocated p) (hdir : (s.inode p).type = mfsDirectory)
    (hk : (s.inode p).dpUsed k = 1) (hd : ∀ e, d.SlotOK e) :
    WF (putBlock s p k d) ∧ (putBlock s p k d).tree = Function.update s.tree p
      (some (.dir (slotsWith s.file (s.inode p) (firstBlocks (s.inode p).nblocks) k d))) := by
  refine h.replace (u := putBlock s p k d) (q := _) ha hdir hk rfl rfl
    (l := [⟨blk ((s.inode p).dpointers k) * 4096, 4096, d.encode⟩]) (File.seekTo_self _).symm ?_
    (dirAt_pwrite_self d) hd
  intro w hw
  rw [List.mem_singleton.mp hw]
  exact ⟨rfl, Nat.le_refl _⟩

end Replace

/-! ## Adding a directory block -/

/-- The inode of a directory whose direct pointer `k` got the new block `x`. -/
def Inode.extended (n : Inode) (k : Fin 14) (x : Int32) : Inode :=
  { n with
    size := n.size + 4096
    dpUsed := Function.update n.dpUsed k 1
    dpointers := Function.update n.dpointers k x }

theorem extended_dpUsed (n : Inode) (k : Fin 14) (x : Int32) :
    (n.extended k x).dpUsed = Function.update n.dpUsed k 1 := rfl

theorem extended_dpointers (n : Inode) (k : Fin 14) (x : Int32) :
    (n.extended k x).dpointers = Function.update n.dpointers k x := rfl

theorem extended_type (n : Inode) (k : Fin 14) (x : Int32) :
    (n.extended k x).type = n.type := by
  simp only [Inode.extended]

theorem extended_inum (n : Inode) (k : Fin 14) (x : Int32) :
    (n.extended k x).inum = n.inum := by
  simp only [Inode.extended]

theorem DirShape.extended_size {f : File} {x : Int32} {n : Inode} (h : DirShape f x n) (k : Fin 14)
    (y : Int32) :
    (n.extended k y).size = Int32.ofNat (4096 * (n.nblocks + 1)) := by
  have hsum : 4096 * (n.nblocks + 1) = 4096 * n.nblocks + 4096 := by omega
  rw [hsum, Int32.ofNat_add, ← h.size_eq]
  rfl

theorem DirShape.extended_nblocks {f : File} {x : Int32} {n : Inode} (h : DirShape f x n) {k : Fin 14}
    (hk : k.val = n.nblocks) (y : Int32) : (n.extended k y).nblocks = n.nblocks + 1 := by
  have hlt := k.isLt
  rw [Inode.nblocks, h.extended_size, Int32.toNatClampNeg_ofNat_of_lt (by omega)]
  omega

/-- The write calls that add the block `d` to directory `p`, with the inode written in full. -/
def extendCalls (s : Server) (p : Int32) (k : Fin 14) (d : Directory) (past : Mem) : List WriteCall :=
  [⟨blk s.nextBlock * 4096, 4096, d.encode⟩,
    ⟨blk (s.imap p) * 4096, 4096, parentMem ((s.inode p).extended k s.nextBlock) past⟩]

/-- The server after a block was added to directory `p`. -/
def extendDir (s : Server) (p : Int32) (k : Fin 14) (d : Directory) (past : Mem) : Server :=
  { s with nextBlock := s.nextBlock + 1, file := s.file.pwrites (extendCalls s p k d past) }

section Extend

variable {k : Fin 14} {d : Directory} {past : Mem}

variable (k d past) in
theorem extendDir_inode :
    (extendDir s p k d past).inode p = (s.inode p).extended k s.nextBlock :=
  inodeAt_pwrite_self (by omega) fun _ ho => if_pos ho

theorem WF.extendDir_new (h : WF s) (ha : s.Allocated p) :
    dirAt (extendDir s p k d past).file s.nextBlock = d := by
  have hsame : SameBlock (extendDir s p k d past).file
      (s.file.pwrite ⟨blk s.nextBlock * 4096, 4096, d.encode⟩) s.nextBlock :=
    sameBlock_pwrite_ne (Nat.le_refl _) (h.owned_ne_next (NodeWF.owns_inode ha))
  rw [hsame.dirAt, dirAt_pwrite_self]

theorem WF.extendDir_same (h : WF s) (ha : s.Allocated p) {x : Int32} (hx : s.Owns p x)
    (hne : x ≠ s.imap p) : SameBlock (extendDir s p k d past).file s.file x := by
  have hx0 := ((h.node p ha).owned x hx).1
  have hi0 := ((h.node p ha).owned _ (NodeWF.owns_inode ha)).1
  have hxi : blk (s.imap p) ≠ blk x := fun hc => hne (blk_inj (by omega) (by omega) hc.symm)
  intro o ho
  refine Eq.trans (File.blockAt_pwrite_ne (Nat.le_refl _) hxi ho) ?_
  exact File.blockAt_pwrite_ne (Nat.le_refl _) (Ne.symm (h.owned_ne_next hx)) ho

/-- The direct blocks of the extended directory. -/
theorem WF.extendDir_dirAt (h : WF s) (ha : s.Allocated p) {j : Fin 14}
    (hj : j ≠ k → (s.inode p).dpUsed j = 1) :
    dirAt (extendDir s p k d past).file (((s.inode p).extended k s.nextBlock).dpointers j) =
      if j = k then d else dirAt s.file ((s.inode p).dpointers j) := by
  by_cases hjk : j = k
  · rw [if_pos hjk, hjk, extended_dpointers, Function.update_self]
    exact h.extendDir_new ha
  · rw [if_neg hjk, extended_dpointers, Function.update_of_ne hjk]
    have hown := NodeWF.owns_block ha (hj hjk)
    exact (h.extendDir_same ha hown ((h.node p ha).apart j (hj hjk))).dirAt

theorem WF.extendDir_shape (h : WF s) (ha : s.Allocated p)
    (hdir : (s.inode p).type = mfsDirectory) (hk : k.val = (s.inode p).nblocks)
    (hd : ∀ e, d.SlotOK e) :
    DirShape (extendDir s p k d past).file (s.imap p) ((s.inode p).extended k s.nextBlock) := by
  have hshape := (h.node p ha).dir hdir
  have hn := hshape.extended_nblocks hk s.nextBlock
  have hpos := hshape.nblocks_pos
  have hlt := k.isLt
  have hzero : (0 : Fin 14) ≠ k := by
    intro hc
    rw [← hc] at hk
    exact absurd hk.symm (by simpa using Nat.ne_of_gt hpos)
  have hold : ∀ j, j ≠ k → (s.inode p |>.extended k s.nextBlock).dpUsed j = 1 →
      (s.inode p).dpUsed j = 1 := by
    intro j hjk hj
    rwa [extended_dpUsed, Function.update_of_ne hjk] at hj
  constructor
  case size_eq => rw [hn]; exact hshape.extended_size k _
  case nblocks_pos => omega
  case nblocks_le => omega
  case used_iff =>
    intro j
    rw [hn]
    by_cases hjk : j = k
    · simp only [extended_dpUsed, hjk, Function.update_self, true_iff]
      omega
    · have hjv : j.val ≠ k.val := fun hc => hjk (Fin.ext hc)
      simp only [extended_dpUsed, Function.update_of_ne hjk, hshape.used_iff j]
      omega
  case adjacent =>
    rw [extended_dpointers, Function.update_of_ne hzero]
    exact hshape.adjacent
  case slot_ok =>
    intro j hj e
    rw [h.extendDir_dirAt ha (fun hjk => hold j hjk hj)]
    by_cases hjk : j = k
    · rw [if_pos hjk]
      exact hd e
    · rw [if_neg hjk]
      exact hshape.slot_ok j (hold j hjk hj) e

theorem WF.extendCalls_ok (h : WF s) (ha : s.Allocated p) :
    ∀ w ∈ extendCalls s p k d past, WriteOK s p w ∧ InLog w := by
  have hnb := blk_eq h.fits_next.1
  intro w hw
  simp only [extendCalls, List.mem_cons, List.not_mem_nil, or_false] at hw
  rcases hw with rfl | rfl
  · have hpast : PastLog s ⟨blk s.nextBlock * 4096, 4096, d.encode⟩ :=
      ⟨_, rfl, Nat.le_refl _, by omega⟩
    exact ⟨hpast.writeOK p, h.inLog_past hpast⟩
  · exact ⟨WF.writeOK_inode ha (Nat.le_refl _) _, h.inLog_owned (NodeWF.owns_inode ha) _ _⟩

theorem WF.extendDir_wf (h : WF s) (ha : s.Allocated p) (hdir : (s.inode p).type = mfsDirectory)
    (hk : k.val = (s.inode p).nblocks) (hd : ∀ e, d.SlotOK e)
    (hb : (extendDir s p k d past).Bounded) :
    WF (extendDir s p k d past) ∧ (extendDir s p k d past).tree = Function.update s.tree p
      (some (.dir (dirSlots s.file (s.inode p) ++ d.slots))) := by
  have hn := h.node p ha
  have hshape := hn.dir hdir
  have hinode := extendDir_inode (s := s) (p := p) k d past
  have hnext : (extendDir s p k d past).nextBlock.toInt = s.nextBlock.toInt + 1 :=
    toInt_succ h.fits_next
  have hnode : NodeWF (extendDir s p k d past) p := by
    refine hn.link ha h.next rfl (Int.le_of_eq hnext.symm) (k := k) ?_ ?_ ?_ ?_
      File.size_le_pwrites ?_ ?_ ?_
    · rw [hinode, extended_inum]
    · rw [hinode, extended_type]
    · rw [hinode, extended_dpointers]
    · rw [hinode, extended_dpUsed]
    · exact Nat.le_trans (File.end_le_size_pwrite (f := s.file)
        (w := ⟨blk s.nextBlock * 4096, 4096, d.encode⟩) (by simp)) File.size_le_pwrite
    · intro _
      rw [hinode]
      exact h.extendDir_shape ha hdir hk hd
    · rw [hinode, extended_type, hdir]
      intro hc
      exact absurd hc (by decide)
  have hown : ∀ x, (extendDir s p k d past).Owns p x → s.Owns p x ∨ s.nextBlock.toInt ≤ x.toInt := by
    intro x hx
    rcases NodeWF.owns_link (u := extendDir s p k d past) (k := k) ha rfl
      (by rw [hinode, extended_dpointers]) (by rw [hinode, extended_dpUsed]) hx with hx' | rfl
    · exact Or.inl hx'
    · exact Or.inr (Int.le_refl _)
  obtain ⟨hwf, htree⟩ := h.update (u := extendDir s p k d past) (t := p)
    (File.seekTo_self _).symm (fun w hw => (h.extendCalls_ok ha w hw).1) (fun _ _ => rfl) (by omega) hb
    (fun _ => ⟨h.inRange p ha, hnode⟩) hown
  refine ⟨hwf, ?_⟩
  have htype : ((s.inode p).extended k s.nextBlock).type = mfsDirectory := by
    rw [extended_type, hdir]
  have hnot : k ∉ firstBlocks (s.inode p).nblocks := fun hc => by
    have := mem_firstBlocks.mp hc
    omega
  rw [htree, tree_of_allocated (s := extendDir s p k d past) ha, nodeOf, hinode, if_pos htype,
    dirSlots, hshape.extended_nblocks hk, ← hk, firstBlocks_succ, List.flatMap_append, hk,
    List.flatMap_singleton, h.extendDir_dirAt ha (fun hc => absurd rfl hc), if_pos rfl, dirSlots]
  congr 4
  refine List.flatMap_congr ?_
  intro j hj
  have hjk : j ≠ k := fun hc => hnot (hc ▸ hj)
  rw [h.extendDir_dirAt ha (fun _ => (hshape.used_iff j).mpr (mem_firstBlocks.mp hj)), if_neg hjk]

end Extend

/-! ## Giving a number to a new file -/

/-- The write call that stores a new regular file: its inode. -/
def allocFileCalls (s : Server) (i : Int32) : List WriteCall :=
  [⟨blk s.nextBlock * 4096, 124, (newInode i mfsRegularFile).encode⟩]

/-- The server after the inode of a new regular file was written to the end of the log. -/
def allocFile (s : Server) (i : Int32) : Server where
  imap := Function.update s.imap i s.nextBlock
  nextBlock := s.nextBlock + 1
  file := s.file.pwrites (allocFileCalls s i)

section AllocFile

variable {i : Int32}

theorem allocFile_imap_self : (allocFile s i).imap i = s.nextBlock := Function.update_self ..

theorem allocFile_inode : (allocFile s i).inode i = newInode i mfsRegularFile := by
  rw [Server.inode, allocFile_imap_self]
  exact inodeAt_pwrite_self (Nat.le_refl _) fun _ _ => rfl

theorem allocFile_owns {x : Int32} (hx : (allocFile s i).Owns i x) : x = s.nextBlock := by
  obtain ⟨_, rfl | ⟨k, hk, _⟩⟩ := hx
  · exact allocFile_imap_self
  · rw [allocFile_inode] at hk
    exact absurd hk (by decide : ¬ (0 : Int32) = 1)

theorem WF.allocFile_node (h : WF s) : NodeWF (allocFile s i) i := by
  have hnext : (allocFile s i).nextBlock.toInt = s.nextBlock.toInt + 1 := toInt_succ h.fits_next
  have hsix := h.next
  have hunused : ∀ k, ¬ ((allocFile s i).inode i).dpUsed k = 1 := by
    intro k
    rw [allocFile_inode]
    exact (by decide : ¬ (0 : Int32) = 1)
  constructor
  case inum_eq => rw [allocFile_inode]; rfl
  case type_ok => rw [allocFile_inode]; exact Or.inr rfl
  case used_bit => rw [allocFile_inode]; exact fun _ => Or.inl rfl
  case used_iff =>
    rw [allocFile_inode]
    exact fun _ => by simp [newInode]
  case owned =>
    intro x hx
    rw [allocFile_owns hx]
    omega
  case inode_end =>
    rw [allocFile_imap_self]
    exact File.end_le_size_pwrite (f := s.file) (w := ⟨blk s.nextBlock * 4096, 124, _⟩) (by simp)
  case block_end => exact fun k hk => absurd hk (hunused k)
  case inj => exact fun k _ hk => absurd hk (hunused k)
  case apart => exact fun k hk => absurd hk (hunused k)
  case dir =>
    rw [allocFile_inode]
    intro hc
    exact absurd hc (by decide : ¬ mfsRegularFile = mfsDirectory)
  case file =>
    intro _
    exact ⟨fun k hk => absurd hk (hunused k), Or.inl (by rw [allocFile_inode]; rfl)⟩

theorem WF.allocFileCalls_past (h : WF s) : ∀ w ∈ allocFileCalls s i, PastLog s w := by
  have hnb := blk_eq h.fits_next.1
  intro w hw
  rw [List.mem_singleton.mp hw]
  exact ⟨_, rfl, by simp, by omega⟩

theorem WF.allocFile_wf (h : WF s) (hi : InRange i) (hb : (allocFile s i).Bounded) :
    WF (allocFile s i) ∧
      (allocFile s i).tree = Function.update s.tree i (some (.file 0 fun _ => none)) := by
  have hnext : (allocFile s i).nextBlock.toInt = s.nextBlock.toInt + 1 := toInt_succ h.fits_next
  have halloc : (allocFile s i).Allocated i := by
    rw [Server.Allocated, allocFile_imap_self]
    intro hc
    have hsix := h.next
    rw [hc] at hsix
    exact absurd hsix (by decide)
  obtain ⟨hwf, htree⟩ := h.update (u := allocFile s i) (t := i) (File.seekTo_self _).symm
    (fun w hw => (h.allocFileCalls_past w hw).writeOK i)
    (fun j hj => Function.update_of_ne hj _ _) (by omega) hb (fun _ => ⟨hi, h.allocFile_node⟩)
    (fun x hx => Or.inr (by rw [allocFile_owns hx]))
  refine ⟨hwf, ?_⟩
  have htype : ¬ (newInode i mfsRegularFile).type = mfsDirectory :=
    (by decide : ¬ mfsRegularFile = mfsDirectory)
  rw [htree, tree_of_allocated halloc, nodeOf, allocFile_inode, if_neg htype]
  congr 3

end AllocFile

/-! ## Giving a number to a new directory -/

/-- The inode of a directory just created, with its first block at `x`. -/
def newDirInode (i x : Int32) : Inode where
  size := 4096
  type := mfsDirectory
  inum := i
  dpointers := Function.update (fun _ => -1) 0 x
  dpUsed := Function.update (fun _ => 0) 0 1

/-- The write calls that store a new directory: its first block, then its inode. -/
def allocDirCalls (s : Server) (i : Int32) (d : Directory) : List WriteCall :=
  [⟨blk s.nextBlock * 4096, 4096, d.encode⟩,
    ⟨blk (s.nextBlock + 1) * 4096, 124, (newDirInode i s.nextBlock).encode⟩]

/-- The server after a new directory was written to the end of the log. -/
def allocDir (s : Server) (i : Int32) (d : Directory) : Server where
  imap := Function.update s.imap i (s.nextBlock + 1)
  nextBlock := s.nextBlock + 1 + 1
  file := s.file.pwrites (allocDirCalls s i d)

section AllocDir

variable {i : Int32} {d : Directory}

theorem allocDir_imap_self : (allocDir s i d).imap i = s.nextBlock + 1 := Function.update_self ..

theorem allocDir_inode : (allocDir s i d).inode i = newDirInode i s.nextBlock := by
  rw [Server.inode, allocDir_imap_self]
  exact inodeAt_pwrite_self (Nat.le_refl _) fun _ _ => rfl

theorem newDirInode_used {x : Int32} {k : Fin 14} :
    (newDirInode i x).dpUsed k = 1 ↔ k = 0 := by
  by_cases hk : k = 0
  · simp [newDirInode, hk]
  · simp [newDirInode, hk]

theorem newDirInode_ptr {x : Int32} : (newDirInode i x).dpointers 0 = x := by
  simp only [newDirInode, Function.update_self]

theorem newDirInode_nblocks {x : Int32} : (newDirInode i x).nblocks = 1 := by
  have hsize : (newDirInode i x).size.toNatClampNeg = 4096 :=
    (by decide : (4096 : Int32).toNatClampNeg = 4096)
  rw [Inode.nblocks, hsize]

theorem WF.toInt_next (h : WF s) :
    (s.nextBlock + 1).toInt = s.nextBlock.toInt + 1 ∧
      (s.nextBlock + 1 + 1).toInt = s.nextBlock.toInt + 2 := by
  have hfits := h.fits_next
  obtain ⟨h0, h1⟩ := hfits
  have hone := toInt_succ h.fits_next
  have htwo := toInt_succ_of_lt (x := s.nextBlock + 1) (by omega) (by omega)
  omega

theorem WF.allocDir_dirAt (h : WF s) : dirAt (allocDir s i d).file s.nextBlock = d := by
  have hnext := h.toInt_next
  have h0 := h.fits_next.1
  have hne : blk (s.nextBlock + 1) ≠ blk s.nextBlock := by
    have h1 := blk_eq (x := s.nextBlock + 1) (by omega)
    have h2 := blk_eq h0
    omega
  have hsame : SameBlock (allocDir s i d).file
      (s.file.pwrite ⟨blk s.nextBlock * 4096, 4096, d.encode⟩) s.nextBlock :=
    sameBlock_pwrite_ne (by omega) hne
  rw [hsame.dirAt, dirAt_pwrite_self]

theorem allocDir_owns {x : Int32} (hx : (allocDir s i d).Owns i x) :
    x = s.nextBlock ∨ x = s.nextBlock + 1 := by
  obtain ⟨_, rfl | ⟨k, hk, rfl⟩⟩ := hx
  · exact Or.inr allocDir_imap_self
  · rw [allocDir_inode] at hk ⊢
    rw [newDirInode_used.mp hk, newDirInode_ptr]
    exact Or.inl rfl

theorem WF.allocDir_shape (h : WF s) (hd : ∀ e, d.SlotOK e) :
    DirShape (allocDir s i d).file (s.nextBlock + 1) (newDirInode i s.nextBlock) := by
  constructor
  case size_eq => rw [newDirInode_nblocks]; rfl
  case nblocks_pos => rw [newDirInode_nblocks]
  case nblocks_le => rw [newDirInode_nblocks]; decide
  case used_iff =>
    intro k
    rw [newDirInode_used, newDirInode_nblocks, Nat.lt_one_iff, Fin.ext_iff]
    rfl
  case adjacent => rw [newDirInode_ptr]
  case slot_ok =>
    intro k hk e
    rw [newDirInode_used.mp hk, newDirInode_ptr, h.allocDir_dirAt]
    exact hd e

theorem WF.allocDir_node (h : WF s) (hd : ∀ e, d.SlotOK e) : NodeWF (allocDir s i d) i := by
  have hnext := h.toInt_next
  have hnb : (allocDir s i d).nextBlock.toInt = s.nextBlock.toInt + 2 := hnext.2
  have hsix := h.next
  have hne : s.nextBlock ≠ s.nextBlock + 1 := by
    intro hc
    rw [← hc] at hnext
    omega
  constructor
  case inum_eq => rw [allocDir_inode]; rfl
  case type_ok => rw [allocDir_inode]; exact Or.inl rfl
  case used_bit =>
    intro k
    rw [allocDir_inode]
    by_cases hk : k = 0
    · exact Or.inr (newDirInode_used.mpr hk)
    · exact Or.inl (by simp [newDirInode, hk])
  case used_iff =>
    intro k
    rw [allocDir_inode, newDirInode_used]
    by_cases hk : k = 0
    · have hnew : s.nextBlock ≠ -1 := by
        intro hc
        rw [hc] at hsix
        exact absurd hsix (by decide)
      simp [hk, newDirInode_ptr, hnew]
    · simp [newDirInode, hk]
  case owned =>
    intro x hx
    rcases allocDir_owns hx with rfl | rfl <;> omega
  case inode_end =>
    rw [allocDir_imap_self]
    exact File.end_le_size_pwrite (w := ⟨blk (s.nextBlock + 1) * 4096, 124, _⟩) (by simp)
  case block_end =>
    intro k hk
    rw [allocDir_inode] at hk ⊢
    rw [newDirInode_used.mp hk, newDirInode_ptr]
    exact Nat.le_trans (File.end_le_size_pwrite (f := s.file)
      (w := ⟨blk s.nextBlock * 4096, 4096, d.encode⟩) (by simp)) File.size_le_pwrite
  case inj =>
    intro k k' hk hk' _
    rw [allocDir_inode, newDirInode_used] at hk hk'
    rw [hk, hk']
  case apart =>
    intro k hk
    rw [allocDir_inode] at hk ⊢
    rw [newDirInode_used.mp hk, newDirInode_ptr, allocDir_imap_self]
    exact hne
  case dir =>
    intro _
    rw [allocDir_inode, allocDir_imap_self]
    exact h.allocDir_shape hd
  case file =>
    rw [allocDir_inode]
    intro hc
    exact absurd hc (by decide : ¬ mfsDirectory = mfsRegularFile)

theorem WF.allocDirCalls_past (h : WF s) : ∀ w ∈ allocDirCalls s i d, PastLog s w := by
  have hnext := h.toInt_next
  have h0 := h.fits_next.1
  have h1 := blk_eq (x := s.nextBlock + 1) (by omega)
  have h2 := blk_eq h0
  intro w hw
  simp only [allocDirCalls, List.mem_cons, List.not_mem_nil, or_false] at hw
  rcases hw with rfl | rfl
  · exact ⟨_, rfl, by simp, by omega⟩
  · exact ⟨_, rfl, by simp, by omega⟩

theorem WF.allocDir_wf (h : WF s) (hi : InRange i) (hd : ∀ e, d.SlotOK e)
    (hb : (allocDir s i d).Bounded) :
    WF (allocDir s i d) ∧ (allocDir s i d).tree = Function.update s.tree i (some (.dir d.slots)) := by
  have hnext := h.toInt_next
  have hnb : (allocDir s i d).nextBlock.toInt = s.nextBlock.toInt + 2 := hnext.2
  have halloc : (allocDir s i d).Allocated i := by
    rw [Server.Allocated, allocDir_imap_self]
    intro hc
    have hsix := h.next
    rw [hc] at hnext
    have hneg : (-1 : Int32).toInt = -1 := by decide
    omega
  obtain ⟨hwf, htree⟩ := h.update (u := allocDir s i d) (t := i) (File.seekTo_self _).symm
    (fun w hw => (h.allocDirCalls_past w hw).writeOK i)
    (fun j hj => Function.update_of_ne hj _ _) (by omega) hb (fun _ => ⟨hi, h.allocDir_node hd⟩)
    (fun x hx => Or.inr (by rcases allocDir_owns hx with rfl | rfl <;> omega))
  refine ⟨hwf, ?_⟩
  have htype : (newDirInode i s.nextBlock).type = mfsDirectory := rfl
  have hfirst : firstBlocks 1 = [0] := by decide
  rw [htree, tree_of_allocated halloc, nodeOf, allocDir_inode, if_pos htype, dirSlots,
    newDirInode_nblocks, hfirst, List.flatMap_singleton, newDirInode_ptr, h.allocDir_dirAt]

end AllocDir

/-! ## Taking a number away -/

/-- `imap[i] = -1` -/
def freeNode (s : Server) (i : Int32) : Server := { s with imap := Function.update s.imap i (-1) }

theorem WF.freeNode_wf (h : WF s) (i : Int32) :
    WF (freeNode s i) ∧ (freeNode s i).tree = Function.update s.tree i none := by
  have hfree : ¬ (freeNode s i).Allocated i := by simp [Server.Allocated, freeNode]
  obtain ⟨hwf, htree⟩ := h.update (u := freeNode s i) (t := i) (p := _) (l := [])
    (File.seekTo_self _).symm (by simp) (fun j hj => Function.update_of_ne hj _ _) (Int.le_refl _)
    h.bounded (fun ha => absurd ha hfree) (fun x hx => absurd hx.1 hfree)
  exact ⟨hwf, by rw [htree, tree_of_not_allocated hfree]⟩

end Blocks

end Linux
end LfsXv6
