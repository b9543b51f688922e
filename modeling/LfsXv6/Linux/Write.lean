import LfsXv6.Linux.Update

/-!
# Write — `write_server` refines the abstract write

The data goes to the end of the log, the inode is rewritten in place, and the checkpoint region
follows.
-/

namespace LfsXv6
namespace Linux

open Lib

/-! ## The inode that is written back -/

theorem toInt_blockEnd (k : Fin 14) :
    ((Int32.ofNat k + 1) * 4096).toInt = 4096 * ((k : Nat) + 1 : Int) := by
  revert k
  decide

section WithBlock

variable {n : Inode} {k j : Fin 14} {x : Int32}

@[simp] theorem withBlock_inum : (n.withBlock k x).inum = n.inum := by
  simp only [Inode.withBlock]
  split <;> split <;> rfl

@[simp] theorem withBlock_type : (n.withBlock k x).type = n.type := by
  simp only [Inode.withBlock]
  split <;> split <;> rfl

@[simp] theorem withBlock_dpointers :
    (n.withBlock k x).dpointers = Function.update n.dpointers k x := by
  simp only [Inode.withBlock]
  split <;> split <;> rfl

@[simp] theorem withBlock_size : (n.withBlock k x).size = grow n.size k := by
  simp only [Inode.withBlock, grow]
  split <;> split <;> simp_all

theorem withBlock_dpUsed (hbit : n.dpUsed k = 0 ∨ n.dpUsed k = 1) :
    (n.withBlock k x).dpUsed = Function.update n.dpUsed k 1 := by
  rcases hbit with h | h
  · simp only [Inode.withBlock, h, if_true]
    split <;> rfl
  · have hne : ¬ (1 : Int32) = 0 := by decide
    have hself : Function.update n.dpUsed k 1 = n.dpUsed := by
      rw [← h, Function.update_eq_self]
    rw [hself]
    simp only [Inode.withBlock, h, hne, if_false]
    split <;> rfl

theorem withBlock_used_iff (hbit : n.dpUsed k = 0 ∨ n.dpUsed k = 1) :
    (n.withBlock k x).dpUsed j = 1 ↔ j = k ∨ n.dpUsed j = 1 := by
  rw [withBlock_dpUsed hbit]
  by_cases hj : j = k
  · simp [hj]
  · simp [hj]

end WithBlock

theorem size_le_grow (size : Int32) (k : Fin 14) : size.toInt ≤ (grow size k).toInt := by
  simp only [grow]
  split
  · rename_i h
    rw [gt_iff_lt, Int32.lt_iff_toInt_lt] at h
    omega
  · exact Int.le_refl _

theorem blockEnd_le_grow (size : Int32) (k : Fin 14) :
    4096 * ((k : Nat) + 1 : Int) ≤ (grow size k).toInt := by
  simp only [grow]
  split
  · rw [toInt_blockEnd]
  · rename_i h
    rw [gt_iff_lt, Int32.lt_iff_toInt_lt, toInt_blockEnd] at h
    omega

/-- Writing a block keeps the shape of a regular file. -/
theorem FileShape.withBlock {n : Inode} (h : FileShape n) {k : Fin 14}
    (hbit : n.dpUsed k = 0 ∨ n.dpUsed k = 1) (x : Int32) : FileShape (n.withBlock k x) where
  used_le := by
    intro j hj
    rw [withBlock_size]
    rcases (withBlock_used_iff hbit).mp hj with rfl | hused
    · exact blockEnd_le_grow _ _
    · exact Int.le_trans (h.used_le j hused) (size_le_grow _ _)
  size_eq := by
    right
    rw [withBlock_size]
    by_cases hgt : (Int32.ofNat k + 1) * 4096 > n.size
    · exact ⟨k, (withBlock_used_iff hbit).mpr (Or.inl rfl), by rw [grow, if_pos hgt, toInt_blockEnd]⟩
    · have hgrow : grow n.size k = n.size := by rw [grow, if_neg hgt]
      rw [hgrow]
      rcases h.size_eq with hzero | ⟨j, hj, hsize⟩
      · -- an empty file is shorter than any block end
        rw [hzero, gt_iff_lt, Int32.lt_iff_toInt_lt, toInt_blockEnd] at hgt
        have : (0 : Int32).toInt = 0 := by decide
        omega
      · exact ⟨j, (withBlock_used_iff hbit).mpr (Or.inr hj), hsize⟩

/-! ## The write calls -/

/-- The two write calls of `write_server` in the log. -/
def writeCalls (s : Server) (i : Int32) (k : Fin 14) (buffer : Block) : List WriteCall :=
  [{ off := blk s.nextBlock * 4096, len := 4096, data := buffer.mem },
    { off := blk (s.imap i) * 4096, len := 124, data := ((s.inode i).withBlock k s.nextBlock).encode }]

/-- The server of `write_server` just before `update_CR`. -/
def afterWrite (s : Server) (i : Int32) (k : Fin 14) (buffer : Block) : Server :=
  { s with nextBlock := s.nextBlock + 1, file := s.file.pwrites (writeCalls s i k buffer) }

section Exec

variable {s : Server} {i block : Int32} {k : Fin 14} {buffer : Block}

theorem writeServer_regular {s' : Server} {node : Inode} {st : Stack}
    (hfind : findInode s i st.node = (0, node, s')) (hfile : node.type = mfsRegularFile)
    (hblock : blockIndex block = some k) :
    writeServer s i buffer block st =
      (0, updateCR { s' with
        nextBlock := s'.nextBlock + 1
        file := (((s'.file.lseek (blockOff s'.nextBlock)).write buffer.mem blockSize).lseek
          (blockOff (s'.imap i))).write (node.withBlock k s'.nextBlock).encode inodeSize } i) := by
  unfold writeServer
  simp [hfind, hfile, hblock]

theorem WF.writeServer_eq (h : WF s) (ha : s.Allocated i)
    (hfile : (s.inode i).type = mfsRegularFile) (hblock : blockIndex block = some k) (st : Stack) :
    writeServer s i buffer block st = (0, updateCR (afterWrite s i k buffer) i) := by
  rw [writeServer_regular (h.findInode_eq ha st.node) hfile hblock]
  simp only [seek_file, seek_nextBlock, seek_imap]
  rw [write_block h.fits_next, write_block (h.fits (NodeWF.owns_inode ha)), File.pwrite_seekTo]
  rfl

/-! ## The image afterwards -/

theorem afterWrite_inode :
    (afterWrite s i k buffer).inode i = (s.inode i).withBlock k s.nextBlock :=
  inodeAt_pwrite_self (Nat.le_refl _) fun _ _ => rfl

theorem WF.afterWrite_data (h : WF s) (ha : s.Allocated i) :
    dataAt (afterWrite s i k buffer).file s.nextBlock = buffer := by
  have hne := h.owned_ne_next (NodeWF.owns_inode ha)
  have hsame : SameBlock (afterWrite s i k buffer).file
      (s.file.pwrite { off := blk s.nextBlock * 4096, len := 4096, data := buffer.mem }) s.nextBlock :=
    sameBlock_pwrite_ne (by omega) hne
  rw [hsame.dataAt, dataAt_pwrite_self]

theorem WF.afterWrite_same (h : WF s) (ha : s.Allocated i) {x : Int32} (hx : s.Owns i x)
    (hne : x ≠ s.imap i) : SameBlock (afterWrite s i k buffer).file s.file x := by
  have hx0 := ((h.node i ha).owned x hx).1
  have hi0 := ((h.node i ha).owned _ (NodeWF.owns_inode ha)).1
  have hxi : blk (s.imap i) ≠ blk x := fun hc => hne (blk_inj (by omega) (by omega) hc.symm)
  intro o ho
  refine Eq.trans (File.blockAt_pwrite_ne (by omega) hxi ho) ?_
  exact File.blockAt_pwrite_ne (by omega) (Ne.symm (h.owned_ne_next hx)) ho

/-- The inode that was written is well formed again. -/
theorem WF.afterWrite_node (h : WF s) (ha : s.Allocated i)
    (hfile : (s.inode i).type = mfsRegularFile) : NodeWF (afterWrite s i k buffer) i := by
  have hn := h.node i ha
  have hbit := hn.used_bit k
  refine hn.link ha h.next rfl (Int.le_of_eq (toInt_succ h.fits_next).symm) (k := k) ?_ ?_ ?_ ?_
    File.size_le_pwrites ?_ ?_ ?_
  · rw [afterWrite_inode, withBlock_inum]
  · rw [afterWrite_inode, withBlock_type]
  · rw [afterWrite_inode, withBlock_dpointers]
  · rw [afterWrite_inode, withBlock_dpUsed hbit]
  · exact Nat.le_trans (File.end_le_size_pwrite (f := s.file)
      (w := { off := blk s.nextBlock * 4096, len := 4096, data := buffer.mem }) (by simp))
      File.size_le_pwrite
  · rw [afterWrite_inode, withBlock_type, hfile]
    intro hc
    exact absurd hc (by decide)
  · intro _
    rw [afterWrite_inode]
    exact (hn.file hfile).withBlock hbit _

theorem WF.writeCalls_ok (h : WF s) (ha : s.Allocated i) :
    ∀ w ∈ writeCalls s i k buffer, WriteOK s i w ∧ InLog w := by
  have hi0 := ((h.node i ha).owned _ (NodeWF.owns_inode ha)).1
  have hib := blk_eq (x := s.imap i) (by omega)
  have hnext := h.next
  have hnb := blk_eq (x := s.nextBlock) (by omega)
  intro w hw
  simp only [writeCalls, List.mem_cons, List.not_mem_nil, or_false] at hw
  rcases hw with rfl | rfl
  · exact ⟨Or.inr ⟨_, rfl, Nat.le_refl _, Or.inr (by omega)⟩, by simp only [InLog, crSize]; omega⟩
  · exact ⟨Or.inr ⟨_, rfl, by simp, Or.inl ⟨_, NodeWF.owns_inode ha, rfl⟩⟩,
      by simp only [InLog, crSize]; omega⟩

/-- What the write means: block `k` of file `i` now holds the buffer. -/
theorem WF.afterWrite_wf (h : WF s) (ha : s.Allocated i)
    (hfile : (s.inode i).type = mfsRegularFile) (hb : (afterWrite s i k buffer).Bounded) :
    WF (afterWrite s i k buffer) ∧
      (afterWrite s i k buffer).tree = Function.update s.tree i
        (some (.file (grow (s.inode i).size k)
          (Function.update (fileBlocks s.file (s.inode i)) k (some buffer)))) := by
  have hn := h.node i ha
  have hnext : (afterWrite s i k buffer).nextBlock.toInt = s.nextBlock.toInt + 1 :=
    toInt_succ h.fits_next
  have hdir : ¬ (s.inode i).type = mfsDirectory := by
    rw [hfile]
    decide
  have hown : ∀ x, (afterWrite s i k buffer).Owns i x →
      s.Owns i x ∨ s.nextBlock.toInt ≤ x.toInt := by
    intro x hx
    rcases NodeWF.owns_link (u := afterWrite s i k buffer) (k := k) ha rfl
      (by rw [afterWrite_inode, withBlock_dpointers])
      (by rw [afterWrite_inode, withBlock_dpUsed (hn.used_bit k)]) hx with hx' | rfl
    · exact Or.inl hx'
    · exact Or.inr (Int.le_refl _)
  obtain ⟨hwf, hrest⟩ := h.update (u := afterWrite s i k buffer) (t := i)
    (File.seekTo_self _).symm (fun w hw => (h.writeCalls_ok ha w hw).1) (fun _ _ => rfl) (by omega) hb
    (fun _ => ⟨h.inRange i ha, h.afterWrite_node ha hfile⟩) hown
  refine ⟨hwf, ?_⟩
  rw [hrest, tree_of_allocated (s := afterWrite s i k buffer) ha, nodeOf, afterWrite_inode,
    withBlock_type, if_neg hdir, withBlock_size]
  congr 3
  funext l
  by_cases hl : l = k
  · simp only [fileBlocks, hl, Function.update_self, withBlock_dpUsed (hn.used_bit k),
      withBlock_dpointers, if_true, h.afterWrite_data ha]
  · rw [Function.update_of_ne hl]
    simp only [fileBlocks, withBlock_dpUsed (hn.used_bit k), withBlock_dpointers,
      Function.update_of_ne hl]
    by_cases hused : (s.inode i).dpUsed l = 1
    · rw [if_pos hused, if_pos hused,
        (h.afterWrite_same ha (NodeWF.owns_block ha hused) (hn.apart l hused)).dataAt]
    · rw [if_neg hused, if_neg hused]

end Exec

/-! ## Refinement -/

section Refine

variable {s : Server} {i block : Int32} {buffer : Block} {st : Stack}

variable (st) in
/-- Every path through `write_server`, for a number that is out of range or allocated. -/
theorem WF.writeServer_cases (h : WF s) (ha : Request.Addressed s (.write i buffer block)) :
    Declines s (.write i buffer block) (writeServer s i buffer block st) ∨
      ∃ k, s.Allocated i ∧ (s.inode i).type = mfsRegularFile ∧
        writeServer s i buffer block st = (0, updateCR (afterWrite s i k buffer) i) ∧
        s.tree.write i buffer block = (0, Function.update s.tree i
          (some (.file (grow (s.inode i).size k)
            (Function.update (fileBlocks s.file (s.inode i)) k (some buffer))))) := by
  have hrefuse : ∀ p, writeServer s i buffer block st = (-1, s.seek p) →
      s.tree.write i buffer block = (-1, s.tree) →
      Declines s (.write i buffer block) (writeServer s i buffer block st) := by
    intro p heq hexec
    refine ⟨-1, p, heq, hexec, ?_⟩
    simp only [Fs.cost, hexec]
    rfl
  by_cases halloc : s.Allocated i
  swap
  · -- the number is out of range: `find_inode` fails before anything is read
    have hout : ¬ InRange i := ha.resolve_right halloc
    refine Or.inl (hrefuse s.file.pos ?_ ?_)
    · unfold writeServer
      simp [findInode_of_not_inRange hout, seek_self]
    · rw [Fs.write, tree_of_not_allocated halloc]
  have hfind := h.findInode_eq halloc st.node
  by_cases hfile : (s.inode i).type = mfsRegularFile
  swap
  · refine Or.inl (hrefuse (blk (s.imap i) * 4096 + 124) ?_ ?_)
    · unfold writeServer
      simp [hfind, hfile]
    · have hdir := ((h.node i halloc).type_ok).resolve_right hfile
      rw [Fs.write, tree_of_allocated halloc, nodeOf, if_pos hdir]
  have hdir : ¬ (s.inode i).type = mfsDirectory := by
    rw [hfile]
    decide
  cases hblock : blockIndex block with
  | none =>
      refine Or.inl (hrefuse (blk (s.imap i) * 4096 + 124) ?_ ?_)
      · unfold writeServer
        simp [hfind, hfile, hblock]
      · rw [Fs.write, tree_of_allocated halloc, nodeOf, if_neg hdir, hblock]
  | some k =>
      refine Or.inr ⟨k, halloc, hfile, h.writeServer_eq halloc hfile hblock st, ?_⟩
      rw [Fs.write, tree_of_allocated halloc, nodeOf, if_neg hdir, hblock]

/-- On a request that is out of range or allocated, `write_server` does what the abstract write
does. -/
theorem WF.write_refines (h : WF s) (ha : Request.Addressed s (.write i buffer block))
    (hb : (writeServer s i buffer block st).2.Bounded) :
    Refines s (.write i buffer block) (writeServer s i buffer block st).1
      (writeServer s i buffer block st).2 := by
  rcases h.writeServer_cases st ha with hdecl | ⟨k, halloc, hfile, heq, hexec⟩
  · exact hdecl.refines h
  · have hr := h.inRange i halloc
    rw [heq] at hb ⊢
    obtain ⟨hwf, htree⟩ := h.afterWrite_wf halloc hfile hb
    obtain ⟨hwf', htree'⟩ := hwf.checkpoint hr
    have hcalls : ∀ w ∈ writeCalls s i k buffer, WriteOK s i w ∧ InLog w := h.writeCalls_ok halloc
    constructor
    case wf => exact hwf'
    case ret_eq => simp only [Fs.exec, hexec]
    case tree_eq => rw [htree', htree, Fs.exec, hexec]
    case next_eq =>
      have hcost : s.tree.cost (.write i buffer block) = 1 := by simp [Fs.cost, hexec]
      rw [hcost]
      exact toInt_succ h.fits_next
    case writes =>
      refine ⟨writeCalls s i k buffer ++ crWrites (afterWrite s i k buffer) i, 16388, ?_, ?_⟩
      · rw [updateCR_eq hr, File.pwrites_append]
        rfl
      · intro w hw
        rcases List.mem_append.mp hw with hw | hw
        · exact (hcalls w hw).1
        · exact Or.inl (crWrites_in_region hr w hw)
    case sync =>
      intro hsync _
      exact hsync.checkpoint (File.seekTo_self _).symm (fun w hw => (hcalls w hw).2) hr
        fun _ _ => rfl
    case stale => exact fun _ hforget => hforget.elim

/-- `write_server` takes the blocks that the abstract cost says, whether or not they fit. -/
theorem WF.write_next (h : WF s) (ha : Request.Addressed s (.write i buffer block)) :
    (writeServer s i buffer block st).2.nextBlock.toInt =
      s.nextBlock.toInt + s.tree.cost (.write i buffer block) := by
  rcases h.writeServer_cases st ha with ⟨ret, q, heq, _, hcost⟩ | ⟨k, _, _, heq, hexec⟩
  · rw [heq, hcost, seek_nextBlock]
    simp
  · have hcost : s.tree.cost (.write i buffer block) = 1 := by simp [Fs.cost, hexec]
    rw [heq, hcost, updateCR_nextBlock]
    exact toInt_succ h.fits_next

end Refine

/-! ## A write to a number that is not allocated -/

section Free

variable {s : Server} {i block : Int32} {buffer : Block} {st : Stack}

/-- The write calls of `write_server` when `imap[i]` is `-1`: the second seek fails, so the inode lands
behind the data, past the end of the log. -/
def strayCalls (s : Server) (buffer : Block) (node : Inode) : List WriteCall :=
  [⟨blk s.nextBlock * 4096, 4096, buffer.mem⟩, ⟨(blk s.nextBlock + 1) * 4096, 124, node.encode⟩]

/-- The server after these calls, just before `update_CR`. -/
def stray (s : Server) (buffer : Block) (node : Inode) : Server :=
  { s with nextBlock := s.nextBlock + 1, file := s.file.pwrites (strayCalls s buffer node) }

variable (buffer block st) in
theorem WF.writeServer_free (h : WF s) (hr : InRange i) (hi : s.imap i = -1) :
    (∃ q, writeServer s i buffer block st = (-1, s.seek q)) ∨
      ∃ node, writeServer s i buffer block st = (0, updateCR (stray s buffer node) i) := by
  obtain ⟨node, q, hfind⟩ := findInode_moves s i st.node
  rw [if_pos hr] at hfind
  by_cases hfile : node.type = mfsRegularFile
  swap
  · refine Or.inl ⟨q, ?_⟩
    unfold writeServer
    simp [hfind, hfile]
  cases hblock : blockIndex block with
  | none =>
      refine Or.inl ⟨q, ?_⟩
      unfold writeServer
      simp [hfind, hfile, hblock]
  | some k =>
      have hneg : blockOff (-1) < 0 := by decide
      refine Or.inr ⟨node.withBlock k s.nextBlock, ?_⟩
      rw [writeServer_regular hfind hfile hblock]
      simp only [seek_file, seek_nextBlock, seek_imap]
      rw [hi, write_block h.fits_next, File.lseek_of_neg _ hneg, File.pwrite_seekTo]
      have hend : (blk s.nextBlock + 1) * 4096 = blk s.nextBlock * 4096 + 4096 := by omega
      rw [stray, strayCalls, hend]
      rfl

/-- Such a write may be answered with 0, but it changes no file. -/
theorem WF.write_quiet (h : WF s) (hr : InRange i) (hi : s.imap i = -1)
    (hroom : (s.nextBlock.toInt + 1) * 4096 < 2 ^ 31) :
    Quiet s (writeServer s i buffer block st).2 := by
  rcases h.writeServer_free block buffer st hr hi with
    ⟨q, heq⟩ | ⟨node, heq⟩
  · rw [heq]
    exact Quiet.of_seek h q
  · have hnb := blk_eq h.fits_next.1
    have hnext : (stray s buffer node).nextBlock.toInt = s.nextBlock.toInt + 1 :=
      toInt_succ h.fits_next
    have hpast : ∀ w ∈ strayCalls s buffer node, PastLog s w := by
      intro w hw
      simp only [strayCalls, List.mem_cons, List.not_mem_nil, or_false] at hw
      rcases hw with rfl | rfl
      · exact ⟨_, rfl, by simp, by omega⟩
      · exact ⟨_, rfl, by simp, by omega⟩
    have hfree : ¬ (stray s buffer node).Allocated i := fun ha => ha hi
    obtain ⟨hwf, htree⟩ := h.update (t := i) (u := stray s buffer node) (File.seekTo_self _).symm
      (fun w hw => (hpast w hw).writeOK i) (fun _ _ => rfl) (by omega)
      (by simp only [Server.Bounded]; omega) (fun ha => absurd ha hfree)
      (fun x hx => absurd hx.1 hfree)
    obtain ⟨hwf', htree'⟩ := hwf.checkpoint hr
    rw [heq]
    refine ⟨hwf', ?_, ?_⟩
    · have hnone : s.tree i = none := tree_of_not_allocated fun ha => ha hi
      rw [htree', htree, tree_of_not_allocated hfree, ← hnone, Function.update_eq_self]
    · intro hsync
      exact hsync.checkpoint (File.seekTo_self _).symm (fun w hw => h.inLog_past (hpast w hw)) hr
        fun _ _ => rfl

end Free

end Linux
end LfsXv6
