import LfsXv6.Linux.Update

/-!
# Unlink — `unlink_server` refines the abstract removal

Only the first block of the parent is searched for entries to clear, and only the first block of a
child directory is tested for emptiness.  A child that is not allocated is not an error: the read of
its inode starts behind the parent's first block, where the parent's own inode lies.
-/

namespace LfsXv6
namespace Linux

open Lib

/-! ## The first block of a directory -/

section First

variable {f : File} {n : Inode} {name : Name}

/-- The direct pointers of a directory after the first. -/
def laterBlocks (m : Nat) : List (Fin 14) := (firstBlocks m).tail

theorem firstBlocks_eq_cons {m : Nat} (h : 1 ≤ m) : firstBlocks m = 0 :: laterBlocks m := by
  obtain ⟨m, rfl⟩ := Nat.exists_eq_add_of_le' h
  rw [laterBlocks, firstBlocks, List.finRange_succ, List.take_succ_cons, List.tail_cons]

theorem zero_not_mem_laterBlocks {m : Nat} (h : 1 ≤ m) : 0 ∉ laterBlocks m := by
  have := nodup_firstBlocks m
  rw [firstBlocks_eq_cons h] at this
  exact (List.nodup_cons.mp this).1

theorem dirSlots_eq_append (h : 1 ≤ n.nblocks) :
    dirSlots f n = (dirAt f (n.dpointers 0)).slots ++
      (laterBlocks n.nblocks).flatMap fun k => (dirAt f (n.dpointers k)).slots := by
  rw [dirSlots, firstBlocks_eq_cons h, List.flatMap_cons]

theorem take_dirSlots (h : 1 ≤ n.nblocks) :
    (dirSlots f n).take 128 = (dirAt f (n.dpointers 0)).slots := by
  rw [dirSlots_eq_append h, List.take_left' Directory.length_slots]

theorem drop_dirSlots (h : 1 ≤ n.nblocks) :
    (dirSlots f n).drop 128 =
      (laterBlocks n.nblocks).flatMap fun k => (dirAt f (n.dpointers k)).slots := by
  rw [dirSlots_eq_append h, List.drop_left' Directory.length_slots]

/-- Replacing the first block. -/
theorem slotsWith_first (h : 1 ≤ n.nblocks) (d : Directory) :
    slotsWith f n (firstBlocks n.nblocks) 0 d = d.slots ++ (dirSlots f n).drop 128 := by
  rw [drop_dirSlots h, firstBlocks_eq_cons h, slotsWith, List.flatMap_cons, if_pos rfl]
  refine congrArg (d.slots ++ ·) (List.flatMap_congr ?_)
  intro k hk
  have hne : ¬ k = 0 := fun hc => zero_not_mem_laterBlocks h (hc ▸ hk)
  rw [if_neg hne]

theorem inFirst_dirSlots (h : 1 ≤ n.nblocks) (hok : ∀ e, (dirAt f (n.dpointers 0)).SlotOK e) :
    inFirst (dirSlots f n) name = ((dirAt f (n.dpointers 0)).findName name).isSome := by
  rw [inFirst, take_dirSlots h, Bool.eq_iff_iff, List.any_eq_true, ← List.find?_isSome,
    Directory.find?_slots hok, Option.isSome_map]

theorem occupied_iff {d : Directory} :
    d.occupied = true ↔ ∃ e : Fin 128, 2 ≤ e.val ∧ d.inums e ≠ -1 := by
  rw [Directory.occupied]
  simp

theorem looksEmpty_iff {slots : List DirSlot} :
    looksEmpty slots = true ↔ ∀ q, 2 ≤ q → q < 128 → ∀ sl, slots[q]? = some sl → sl = none := by
  rw [looksEmpty, List.all_eq_true]
  constructor
  · intro h q h2 h128 sl hsl
    refine Option.isNone_iff_eq_none.mp (h sl ?_)
    refine List.mem_iff_getElem?.mpr ⟨q - 2, ?_⟩
    rw [List.getElem?_drop, List.getElem?_take_of_lt (by omega)]
    rw [← hsl]
    congr 1
    omega
  · intro h sl hsl
    obtain ⟨q, hq⟩ := List.mem_iff_getElem?.mp hsl
    rw [List.getElem?_drop] at hq
    have hlt : 2 + q < 128 := by
      by_contra hc
      rw [List.getElem?_take_eq_none (by omega)] at hq
      exact absurd hq (by simp)
    rw [List.getElem?_take_of_lt hlt] at hq
    exact Option.isNone_iff_eq_none.mpr (h (2 + q) (by omega) hlt sl hq)

theorem getElem?_slots {d : Directory} {q : Nat} (h : q < 128) : d.slots[q]? = some (d.slot ⟨q, h⟩) := by
  rw [List.getElem?_eq_getElem (by simpa using h)]
  simp [Directory.slots]

theorem slot_eq_none_iff {d : Directory} {e : Fin 128} : d.slot e = none ↔ d.inums e = -1 := by
  by_cases h : d.inums e = -1 <;> simp [Directory.slot, h]

/-- The emptiness test of the server is the abstract one. -/
theorem occupied_eq (h : 1 ≤ n.nblocks) :
    (dirAt f (n.dpointers 0)).occupied = !looksEmpty (dirSlots f n) := by
  rw [Bool.eq_iff_iff, occupied_iff, Bool.not_eq_true', ← Bool.not_eq_true, looksEmpty_iff]
  have hget : ∀ q (hq : q < 128), (dirSlots f n)[q]? = some ((dirAt f (n.dpointers 0)).slot ⟨q, hq⟩) := by
    intro q hq
    rw [← List.getElem?_take_of_lt hq, take_dirSlots h, getElem?_slots hq]
  constructor
  · rintro ⟨e, he, hlive⟩ hempty
    exact hlive (slot_eq_none_iff.mp (hempty e.val he e.isLt _ (hget e.val e.isLt)))
  · intro hne
    by_contra hnone
    refine hne fun q h2 h128 sl hsl => ?_
    rw [hget q h128, Option.some.injEq] at hsl
    rw [← hsl, slot_eq_none_iff]
    by_contra hlive
    exact hnone ⟨⟨q, h128⟩, h2, hlive⟩

end First

/-! ## The loop over the first block -/

section Loop

variable {pinode node : Inode} {name : Name} {temp d : Directory} {j : Fin 128} {js : List (Fin 128)}
  {s : Server}

theorem unlinkLoop_skip (hj : cstr (d.names j) ≠ name.bytes) :
    unlinkLoop pinode node name temp (j :: js) d s = unlinkLoop pinode node name temp js d s := by
  simp only [unlinkLoop, if_neg hj]

/-- A match for a regular file: clear the entry and write the block. -/
theorem unlinkLoop_file (hj : cstr (d.names j) = name.bytes) (hfile : node.type = mfsRegularFile) :
    unlinkLoop pinode node name temp (j :: js) d s =
      unlinkLoop pinode node name temp js (d.clearEntry j)
        { s with
          file := (s.file.lseek (blockOff (pinode.dpointers 0))).write
            (d.clearEntry j).encode blockSize } := by
  simp only [unlinkLoop, if_pos hj, if_pos hfile, Bool.false_eq_true, if_false]

/-- A match for anything else: the child's first block decides. -/
theorem unlinkLoop_dir {t : Directory} {f : File} (hj : cstr (d.names j) = name.bytes)
    (hdir : node.type ≠ mfsRegularFile)
    (hread : readDirectory (s.file.lseek (blockOff (node.dpointers 0))) temp = (t, f)) :
    unlinkLoop pinode node name temp (j :: js) d s =
      if t.occupied then (false, { s with file := f })
      else
        unlinkLoop pinode node name temp js (d.clearEntry j)
          { s with
            file := (f.lseek (blockOff (pinode.dpointers 0))).write
              (d.clearEntry j).encode blockSize } := by
  simp only [unlinkLoop, if_pos hj, if_neg hdir, hread]

theorem occupied_clearEntry (h : d.occupied = false) (j : Fin 128) :
    (d.clearEntry j).occupied = false := by
  rw [← Bool.not_eq_true, occupied_iff] at h ⊢
  rintro ⟨e, he, hlive⟩
  refine h ⟨e, he, ?_⟩
  by_cases hej : e = j
  · subst hej
    exact absurd Directory.setEntry_inums_self hlive
  · rwa [Directory.clearEntry, Directory.setEntry_inums_ne hej] at hlive

/-- The child may be removed: it is a regular file, or its first block has room for the two dot
entries only. -/
def Removable (node : Inode) (f : File) : Prop :=
  node.type = mfsRegularFile ∨
    (Fits (node.dpointers 0) ∧ blk (node.dpointers 0) * 4096 + 4096 ≤ f.size ∧
      (dirAt f (node.dpointers 0)).occupied = false)

/-- Clearing an entry of the parent never makes the child look occupied, even when the parent's block
is the one that is looked at. -/
theorem Removable.pwrite {f : File} {y : Int32} (h : Removable node f)
    (hy : Fits y) (hat : dirAt f y = d) (j : Fin 128) :
    Removable node (f.pwrite ⟨blk y * 4096, 4096, (d.clearEntry j).encode⟩) := by
  rcases h with hfile | ⟨hfits, hsize, hempty⟩
  · exact Or.inl hfile
  · refine Or.inr ⟨hfits, Nat.le_trans hsize File.size_le_pwrite, ?_⟩
    by_cases hxy : node.dpointers 0 = y
    · rw [hxy, dirAt_pwrite_self]
      rw [hxy, hat] at hempty
      exact occupied_clearEntry hempty j
    · have hne : blk y ≠ blk (node.dpointers 0) := fun hc => hxy (blk_inj hfits.1 hy.1 hc.symm)
      rw [(sameBlock_pwrite_ne (Nat.le_refl _) hne).dirAt]
      exact hempty

/-- Without a match the loop does nothing. -/
theorem unlinkLoop_none (hjs : ∀ j ∈ js, cstr (d.names j) ≠ name.bytes) :
    unlinkLoop pinode node name temp js d s = (true, s) := by
  induction js with
  | nil => rfl
  | cons j js ih =>
      rw [unlinkLoop_skip (hjs j List.mem_cons_self)]
      exact ih fun j' hj' => hjs j' (List.mem_cons_of_mem _ hj')

variable (pinode name temp d js) in
/-- An occupied child directory: the first match ends the request. -/
theorem unlinkLoop_refused (hdir : node.type ≠ mfsRegularFile) (hfits : Fits (node.dpointers 0))
    (hsize : blk (node.dpointers 0) * 4096 + 4096 ≤ s.file.size)
    (hocc : (dirAt s.file (node.dpointers 0)).occupied = true)
    (hjs : ∃ j ∈ js, cstr (d.names j) = name.bytes) :
    ∃ q, unlinkLoop pinode node name temp js d s = (false, s.seek q) := by
  induction js with
  | nil => simp at hjs
  | cons j js ih =>
      by_cases hj : cstr (d.names j) = name.bytes
      · rw [unlinkLoop_dir hj hdir (readDirectory_block hfits hsize temp), if_pos hocc]
        exact ⟨_, rfl⟩
      · rw [unlinkLoop_skip hj]
        refine ih ?_
        obtain ⟨j', hmem, hj'⟩ := hjs
        rcases List.mem_cons.mp hmem with rfl | hmem
        · exact absurd hj' hj
        · exact ⟨j', hmem, hj'⟩

variable (name temp js) in
/-- A removable child: every entry of that name is cleared, one write of the block each. -/
theorem unlinkLoop_done (hy : Fits (pinode.dpointers 0)) (hrem : Removable node s.file)
    (hat : dirAt s.file (pinode.dpointers 0) = d) :
    ∃ ws q, unlinkLoop pinode node name temp js d s =
        (true, { s with file := (s.file.pwrites ws).seekTo q }) ∧
      (∀ w ∈ ws, ∃ is,
        w = ⟨blk (pinode.dpointers 0) * 4096, 4096, (d.clearNamed name is).encode⟩) ∧
      dirAt (s.file.pwrites ws) (pinode.dpointers 0) = d.clearNamed name js := by
  induction js generalizing d s with
  | nil => exact ⟨[], s.file.pos, rfl, by simp, hat⟩
  | cons j js ih =>
      have hclear : ∀ is, d.clearNamed name (j :: is) =
          (if cstr (d.names j) = name.bytes then d.clearEntry j else d).clearNamed name is :=
        fun _ => rfl
      by_cases hj : cstr (d.names j) = name.bytes
      · -- the entry is cleared by one write; the rest of the loop starts from there
        have hnext := hrem.pwrite hy hat j
        obtain ⟨ws, q, hloop, hws, hend⟩ := ih
          (s := { s with
            file := s.file.pwrite
              ⟨blk (pinode.dpointers 0) * 4096, 4096, (d.clearEntry j).encode⟩ }) hnext
          (dirAt_pwrite_self _)
        refine ⟨⟨blk (pinode.dpointers 0) * 4096, 4096, (d.clearEntry j).encode⟩ :: ws, q, ?_, ?_, ?_⟩
        · rcases hrem with hfile | ⟨hfits, hsize, hempty⟩
          · rw [unlinkLoop_file hj hfile, write_block hy]
            exact hloop
          · by_cases hfile : node.type = mfsRegularFile
            · rw [unlinkLoop_file hj hfile, write_block hy]
              exact hloop
            · rw [unlinkLoop_dir hj hfile (readDirectory_block hfits hsize temp), hempty,
                if_neg Bool.false_ne_true, write_block hy, File.pwrite_seekTo]
              exact hloop
        · intro w hw
          rcases List.mem_cons.mp hw with rfl | hw
          · refine ⟨[j], ?_⟩
            rw [hclear, if_pos hj]
            rfl
          · obtain ⟨is, his⟩ := hws w hw
            refine ⟨j :: is, ?_⟩
            rw [hclear, if_pos hj]
            exact his
        · rw [hclear, if_pos hj]
          exact hend
      · rw [unlinkLoop_skip hj, hclear, if_neg hj]
        exact ih hrem hat

end Loop

/-! ## Refinement -/

section Refine

variable {s : Server} {p : Int32} {name : Name} {st : Stack}

theorem DirShape.inRange_of_mem {f : File} {x : Int32} {n : Inode} (h : DirShape f x n)
    {nm : List UInt8} {i : Int32} (hmem : some (nm, i) ∈ dirSlots f n) : InRange i := by
  obtain ⟨k, hk, hslot⟩ := List.mem_flatMap.mp hmem
  obtain ⟨e, _, he⟩ := List.mem_map.mp hslot
  have hok := h.slot_ok k ((h.used_iff k).mpr (mem_firstBlocks.mp hk)) e
  rw [Directory.slot] at he
  split at he
  · exact absurd he (by simp)
  · rename_i hlive
    rw [Option.some.injEq] at he
    obtain rfl : (dirAt f (n.dpointers k)).inums e = i := congrArg Prod.snd he
    rcases hok with ⟨hfree, _⟩ | ⟨hr, _⟩
    · exact absurd hfree hlive
    · exact hr

theorem mem_of_lookup {slots : List DirSlot} {n : List UInt8} {i : Int32}
    (h : SlotTable.lookup marker slots n = some i) : some (n, i) ∈ slots := by
  obtain ⟨q, hlive, _⟩ := SlotTable.lookup_eq_some_iff.mp h
  exact List.mem_of_getElem? hlive

theorem not_lt_zero_of_inRange {i : Int32} (h : InRange i) : ¬ i < 0 := Int32.not_lt.mpr h.1

theorem unlinkServer_dir {pinode : Inode} {direct : Directory} {s₁ s₂ : Server} {f : File}
    {inum : Int32} (hfind : findInode s p st.pinode = (0, pinode, s₁))
    (hdir : pinode.type = mfsDirectory)
    (hread : readDirectory (s₁.file.lseek (blockOff (pinode.dpointers 0))) st.direct = (direct, f))
    (hlook : lookupServer { s₁ with file := f } p name st = (inum, s₂)) :
    unlinkServer s p name st =
      if inum < 0 then (0, s₂) else unlinkChild pinode direct name inum st s₂ := by
  unfold unlinkServer
  simp [hfind, hdir, hread, hlook]

theorem unlinkChild_eq {pinode node : Inode} {direct : Directory} {s₂ s₃ s₄ : Server}
    {inum rc : Int32} {done : Bool} (hchild : findInode s₂ inum st.node = (rc, node, s₃))
    (hloop : unlinkLoop pinode node name st.tempDir (List.finRange 128) direct s₃ = (done, s₄)) :
    unlinkChild pinode direct name inum st s₂ =
      if done = false then (-1, s₄) else (0, updateCR (freeNode s₄ inum) inum) := by
  unfold unlinkChild
  rw [hchild]
  simp only []
  rw [hloop]
  rfl

/-- The inode `unlink_server` takes for the child, when the name is in the first block. -/
theorem WF.findInode_child (h : WF s) (ha : s.Allocated p) (hdir : (s.inode p).type = mfsDirectory)
    {i : Int32} (hr : InRange i) :
    ∃ i' q, s.Allocated i' ∧
      s.tree i' = some (s.tree.child (dirSlots s.file (s.inode p)) i) ∧
      ∀ node, findInode (s.seek (blk ((s.inode p).dpointers 0) * 4096 + 4096)) i node =
        (0, s.inode i', s.seek q) := by
  by_cases hi : s.Allocated i
  · refine ⟨i, blk (s.imap i) * 4096 + 124, hi, ?_, ?_⟩
    · rw [Fs.child, tree_of_allocated hi, Option.getD_some]
    · intro node
      rw [(h.seek (blk ((s.inode p).dpointers 0) * 4096 + 4096)).findInode_eq (i := i) hi node,
        seek_inode, seek_seek, seek_imap]
  · -- the descriptor stands behind the first block of `p`, at the inode of `p`
    have hshape := (h.node p ha).dir hdir
    have hused : (s.inode p).dpUsed 0 = 1 := (hshape.used_iff 0).mpr hshape.nblocks_pos
    have hfits := h.fits (NodeWF.owns_block ha hused)
    have hpos : blk ((s.inode p).dpointers 0) * 4096 + 4096 = blk (s.imap p) * 4096 := by
      have h0 := blk_eq hfits.1
      have h1 := blk_eq (h.fits (NodeWF.owns_inode ha)).1
      rw [hshape.adjacent, toInt_succ hfits] at h1
      rw [hshape.adjacent]
      omega
    refine ⟨p, blk (s.imap p) * 4096 + 124, ha, ?_, ?_⟩
    · rw [Fs.child, tree_of_not_allocated hi, Option.getD_none, tree_of_allocated ha, nodeOf,
        if_pos hdir]
    · intro node
      rw [hpos]
      exact findInode_free hr (not_not.mp hi) (h.fits (NodeWF.owns_inode ha))
        (h.node p ha).inode_end node

/-- Whether the child is removable is what the abstract file system says. -/
theorem WF.removable_iff (h : WF s) {i : Int32} (hi : s.Allocated i) :
    (Removable (s.inode i) s.file ↔ Fs.refuses (nodeOf s.file (s.inode i)) = false) ∧
    (Fs.refuses (nodeOf s.file (s.inode i)) = true →
      (s.inode i).type ≠ mfsRegularFile ∧ Fits ((s.inode i).dpointers 0) ∧
      blk ((s.inode i).dpointers 0) * 4096 + 4096 ≤ s.file.size ∧
      (dirAt s.file ((s.inode i).dpointers 0)).occupied = true) := by
  have hn := h.node i hi
  by_cases hdir : (s.inode i).type = mfsDirectory
  · have hshape := hn.dir hdir
    have hused : (s.inode i).dpUsed 0 = 1 := (hshape.used_iff 0).mpr hshape.nblocks_pos
    have hfits := h.fits (NodeWF.owns_block hi hused)
    have hend := hn.block_end 0 hused
    have hnot : ¬ (s.inode i).type = mfsRegularFile := by
      rw [hdir]
      decide
    rw [nodeOf, if_pos hdir, Fs.refuses, ← occupied_eq hshape.nblocks_pos]
    refine ⟨⟨?_, fun hocc => Or.inr ⟨hfits, hend, hocc⟩⟩, fun hocc => ⟨hnot, hfits, hend, hocc⟩⟩
    rintro (hfile | ⟨_, _, hocc⟩)
    · exact absurd hfile hnot
    · exact hocc
  · rw [nodeOf, if_neg hdir, Fs.refuses]
    exact ⟨⟨fun _ => rfl, fun _ => Or.inl (hn.type_ok.resolve_left hdir)⟩, fun hc => absurd hc (by simp)⟩

/-- The end of a removal that was not refused: the number is freed and the checkpoint follows. -/
theorem WF.unlink_commit {v : Server} {l : List WriteCall} {q : Nat} {i : Int32} (hi : InRange i)
    (hv : WF v) (himap : v.imap = s.imap)
    (hnext : v.nextBlock = s.nextBlock) (hfile : v.file = (s.file.pwrites l).seekTo q)
    (hws : ∀ w ∈ l, WriteOK s p w ∧ InLog w)
    (hexec : s.tree.unlink p name = (0, Function.update v.tree i none)) :
    Refines s (.unlink p name) 0 (updateCR (freeNode v i) i) := by
  obtain ⟨hwf, htree⟩ := hv.freeNode_wf i
  obtain ⟨hwf', htree'⟩ := hwf.checkpoint hi
  constructor
  case wf => exact hwf'
  case ret_eq => rw [Fs.exec, hexec]
  case tree_eq => rw [htree', htree, Fs.exec, hexec]
  case next_eq => simp [Fs.cost, freeNode, hnext]
  case writes =>
    refine ⟨l ++ crWrites (freeNode v i) i, 16388, ?_, ?_⟩
    · rw [updateCR_eq hi, File.pwrites_append]
      simp only [freeNode, hfile]
      rfl
    · intro w hw
      rcases List.mem_append.mp hw with hw | hw
      · exact (hws w hw).1
      · exact Or.inl (crWrites_in_region hi w hw)
  case sync =>
    intro hsync _
    refine hsync.checkpoint (u := freeNode v i) hfile (fun w hw => (hws w hw).2) hi ?_
    intro j hj
    simp only [freeNode, Function.update_of_ne hj, himap]
  case stale => exact fun _ hforget => hforget.elim

theorem Directory.findName_eq_none {d : Directory} (h : d.findName name = none) :
    ∀ j ∈ List.finRange 128, cstr (d.names j) ≠ name.bytes := by
  rw [Directory.findName] at h
  intro j hj
  simpa using List.find?_eq_none.mp h j hj

theorem Directory.findName_eq_some {d : Directory} {j : Fin 128} (h : d.findName name = some j) :
    cstr (d.names j) = name.bytes := by
  rw [Directory.findName] at h
  simpa using List.find?_some h

/-- The removal of a number: writes of the first block of `p` with entries of that name cleared, then
`imap[i] = -1` and `update_CR(i)`. -/
def Clears (s : Server) (p : Int32) (name : Name) (t : Server) : Prop :=
  ∃ i ws q, InRange i ∧ s.Allocated p ∧ (s.inode p).type = mfsDirectory ∧
    t = updateCR (freeNode { s with file := (s.file.pwrites ws).seekTo q } i) i ∧
    ∀ w ∈ ws, ∃ is, w = ⟨blk ((s.inode p).dpointers 0) * 4096, 4096,
      ((dirAt s.file ((s.inode p).dpointers 0)).clearNamed name is).encode⟩

/-- What `unlink_server` leads to: nothing, or a removal that is answered with 0. -/
def Settles (s : Server) (p : Int32) (name : Name) (res : Int32 × Server) : Prop :=
  Declines s (.unlink p name) res ∨
    (res.1 = 0 ∧ Refines s (.unlink p name) 0 res.2 ∧ Clears s p name res.2)

/-- The name is in the first block of the parent. -/
theorem WF.unlinkChild_first (h : WF s) (ha : s.Allocated p)
    (hdir : (s.inode p).type = mfsDirectory) {i : Int32} {j : Fin 128}
    (hlook : SlotTable.lookup marker (dirSlots s.file (s.inode p)) name.bytes = some i)
    (hfind : (dirAt s.file ((s.inode p).dpointers 0)).findName name = some j)
    {res : Int32 × Server} (hres : unlinkChild (s.inode p) (dirAt s.file ((s.inode p).dpointers 0))
      name i st (s.seek (blk ((s.inode p).dpointers 0) * 4096 + 4096)) = res) :
    Settles s p name res := by
  have hshape := (h.node p ha).dir hdir
  have hused : (s.inode p).dpUsed 0 = 1 := (hshape.used_iff 0).mpr hshape.nblocks_pos
  have hp : s.tree p = some (.dir (dirSlots s.file (s.inode p))) := by
    rw [tree_of_allocated ha, nodeOf, if_pos hdir]
  have hr : InRange i := hshape.inRange_of_mem (mem_of_lookup hlook)
  have hin : inFirst (dirSlots s.file (s.inode p)) name = true := by
    rw [inFirst_dirSlots hshape.nblocks_pos (hshape.slot_ok 0 hused), hfind]
    rfl
  obtain ⟨i', q, hi', hchild, hnode⟩ := h.findInode_child ha hdir hr
  have hnodeOf : nodeOf s.file (s.inode i') = s.tree.child (dirSlots s.file (s.inode p)) i := by
    rw [tree_of_allocated hi', Option.some.injEq] at hchild
    exact hchild
  obtain ⟨hrem, hocc⟩ := h.removable_iff hi'
  rw [hnodeOf] at hrem hocc
  cases hrefuse : Fs.refuses (s.tree.child (dirSlots s.file (s.inode p)) i) with
  | true =>
      obtain ⟨htype, hfits, hsize, hfull⟩ := hocc hrefuse
      obtain ⟨q', hloop⟩ := unlinkLoop_refused (s := s.seek q) (s.inode p) name st.tempDir
        (dirAt s.file ((s.inode p).dpointers 0)) (List.finRange 128) htype hfits hsize hfull
        ⟨j, List.mem_finRange j, Directory.findName_eq_some hfind⟩
      rw [unlinkChild_eq (hnode st.node) hloop, if_pos rfl] at hres
      refine Or.inl ⟨-1, q', hres.symm, ?_, rfl⟩
      simp only [Fs.exec, Fs.unlink, hp, hlook, hin, hrefuse, if_true]
  | false =>
      obtain ⟨ws, q', hloop, hws, hend⟩ := unlinkLoop_done (s := s.seek q) name st.tempDir
        (List.finRange 128) (d := dirAt s.file ((s.inode p).dpointers 0)) (h.fits (NodeWF.owns_block ha hused))
        (hrem.mpr hrefuse) rfl
      have hslotOK := Directory.SlotOK.clearNamed name (List.finRange 128)
        (hshape.slot_ok 0 hused)
      have hplace : ∀ w ∈ ws, w.off = blk ((s.inode p).dpointers 0) * 4096 ∧ w.len ≤ 4096 := by
        intro w hw
        obtain ⟨is, rfl⟩ := hws w hw
        exact ⟨rfl, Nat.le_refl _⟩
      obtain ⟨hwf, htree⟩ := (h.seek q).replace (p := p) (k := 0) (q := q')
        (u := ⟨s.imap, s.nextBlock, ((s.file.seekTo q).pwrites ws).seekTo q'⟩) ha hdir hused rfl rfl
        rfl hplace hend hslotOK
      have hsl := Directory.slots_clearNamed name (hshape.slot_ok 0 hused)
      rw [seek_tree, seek_inode, slotsWith_first hshape.nblocks_pos, hsl] at htree
      rw [unlinkChild_eq (hnode st.node) hloop, if_neg (by simp)] at hres
      subst hres
      have hclears : Clears s p name (updateCR (freeNode ⟨s.imap, s.nextBlock,
          ((s.file.seekTo q).pwrites ws).seekTo q'⟩ i) i) :=
        ⟨i, ws, q', hr, ha, hdir, by rw [File.pwrites_seekTo], hws⟩
      refine Or.inr ⟨rfl, hwf.unlink_commit (l := ws) (q := q') hr rfl rfl
        (File.pwrites_seekTo _ _) ?_ ?_, hclears⟩
      · intro w hw
        have hown := NodeWF.owns_block ha hused
        have hlog := h.inLog_owned hown w.len w.data
        rw [← (hplace w hw).1] at hlog
        exact ⟨Or.inr ⟨_, (hplace w hw).1, (hplace w hw).2, Or.inl ⟨_, hown, rfl⟩⟩, hlog⟩
      · simp only [Fs.unlink, hp, hlook, hin, hrefuse, if_true, Bool.false_eq_true, if_false]
        rw [clearFirst, take_dirSlots hshape.nblocks_pos, seek_imap, seek_nextBlock, seek_file, htree]
        rfl

variable (st) in
/-- Every path through `unlink_server`, for a number that is out of range or allocated. -/
theorem WF.unlinkServer_cases (h : WF s) (ha : Request.Addressed s (.unlink p name)) :
    Settles s p name (unlinkServer s p name st) := by
  by_cases halloc : s.Allocated p
  swap
  · have hout : ¬ InRange p := ha.resolve_right halloc
    have heq : unlinkServer s p name st = (-1, s.seek s.file.pos) := by
      unfold unlinkServer
      simp [findInode_of_not_inRange hout, seek_self]
    refine Or.inl ⟨-1, _, heq, ?_, rfl⟩
    rw [Fs.exec, Fs.unlink, tree_of_not_allocated halloc]
  have hfind := h.findInode_eq halloc st.pinode
  by_cases hdir : (s.inode p).type = mfsDirectory
  swap
  · have heq : unlinkServer s p name st = (-1, s.seek (blk (s.imap p) * 4096 + 124)) := by
      unfold unlinkServer
      simp [hfind, hdir]
    refine Or.inl ⟨-1, _, heq, ?_, rfl⟩
    rw [Fs.exec, Fs.unlink, tree_of_allocated halloc, nodeOf, if_neg hdir]
  have hshape := (h.node p halloc).dir hdir
  have hused : (s.inode p).dpUsed 0 = 1 := (hshape.used_iff 0).mpr hshape.nblocks_pos
  have hp : s.tree p = some (.dir (dirSlots s.file (s.inode p))) := by
    rw [tree_of_allocated halloc, nodeOf, if_pos hdir]
  have hread := h.readDirectory_eq halloc hused st.direct (blk (s.imap p) * 4096 + 124)
  obtain ⟨q, hlook⟩ := h.lookupServer_eq halloc name st
    (blk ((s.inode p).dpointers 0) * 4096 + 4096)
  have hval : s.tree.lookup p name =
      (SlotTable.lookup marker (dirSlots s.file (s.inode p)) name.bytes).getD (-1) := by
    rw [Fs.lookup, hp]
    rfl
  have heq := unlinkServer_dir (s := s) hfind hdir hread hlook
  cases hsome : SlotTable.lookup marker (dirSlots s.file (s.inode p)) name.bytes with
  | none =>
      rw [hval, hsome, if_pos (by decide)] at heq
      refine Or.inl ⟨0, q, heq, ?_, rfl⟩
      simp only [Fs.exec, Fs.unlink, hp, hsome]
  | some i =>
      have hr : InRange i := hshape.inRange_of_mem (mem_of_lookup hsome)
      rw [hval, hsome, Option.getD_some] at hlook
      rw [hval, hsome, Option.getD_some, if_neg (not_lt_zero_of_inRange hr)] at heq
      cases hname : (dirAt s.file ((s.inode p).dpointers 0)).findName name with
      | some j =>
          have hfirst := h.lookupServer_first halloc hused hname st
            (blk ((s.inode p).dpointers 0) * 4096 + 4096)
          rw [hlook, Prod.mk.injEq] at hfirst
          rw [hfirst.2] at heq
          exact h.unlinkChild_first halloc hdir hsome hname heq.symm
      | none =>
          -- the name is in a later block: no entry is cleared, but the number is freed
          have hin : inFirst (dirSlots s.file (s.inode p)) name = false := by
            rw [inFirst_dirSlots hshape.nblocks_pos (hshape.slot_ok 0 hused), hname]
            rfl
          obtain ⟨node, q', hchild⟩ := findInode_moves (s.seek q) i st.node
          rw [unlinkChild_eq hchild (unlinkLoop_none (Directory.findName_eq_none hname)),
            if_neg (by simp)] at heq
          rw [heq]
          refine Or.inr ⟨rfl, (h.seek q').unlink_commit (l := []) (q := q') hr rfl rfl rfl
            (by simp) ?_, i, [], q', hr, halloc, hdir, rfl, by simp⟩
          simp only [Fs.unlink, hp, hsome, hin, Bool.false_eq_true, if_false, seek_tree]

/-- On a request that is out of range or allocated, `unlink_server` does what the abstract removal
does. -/
theorem WF.unlink_refines (h : WF s) (ha : Request.Addressed s (.unlink p name)) :
    Refines s (.unlink p name) (unlinkServer s p name st).1 (unlinkServer s p name st).2 := by
  rcases h.unlinkServer_cases st ha with hdecl | ⟨hret, href, _⟩
  · exact hdecl.refines h
  · rw [hret]
    exact href

end Refine

end Linux
end LfsXv6
