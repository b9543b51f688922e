import LfsXv6.Linux.WellFormed

/-!
# Search — the read-only half of `lfs.c` on a well-formed image

`find_inode`, `lookup_server` and `stat_server` only move the descriptor.  On a well-formed image
every seek they make succeeds and every read is full, so their results are those of the abstract file
system.
-/

namespace LfsXv6
namespace Linux

open Lib

/-- The server with its descriptor moved. -/
def Server.seek (s : Server) (p : Nat) : Server := { s with file := s.file.seekTo p }

section Seek

variable (s : Server) (p q : Nat)

@[simp] theorem seek_imap : (s.seek p).imap = s.imap := rfl
@[simp] theorem seek_nextBlock : (s.seek p).nextBlock = s.nextBlock := rfl
@[simp] theorem seek_file : (s.seek p).file = s.file.seekTo p := rfl
@[simp] theorem seek_seek : (s.seek p).seek q = s.seek q := rfl
@[simp] theorem seek_inode (i : Int32) : (s.seek p).inode i = s.inode i := rfl
@[simp] theorem seek_tree : (s.seek p).tree = s.tree := rfl
theorem seek_self : s.seek s.file.pos = s := rfl

variable {s}

theorem WF.seek (h : WF s) : WF (s.seek p) where
  inRange := h.inRange
  node := fun i ha =>
    let hn := h.node i ha
    { inum_eq := hn.inum_eq
      type_ok := hn.type_ok
      used_bit := hn.used_bit
      used_iff := hn.used_iff
      owned := hn.owned
      inode_end := hn.inode_end
      block_end := hn.block_end
      inj := hn.inj
      apart := hn.apart
      dir := fun ht =>
        { size_eq := (hn.dir ht).size_eq
          nblocks_pos := (hn.dir ht).nblocks_pos
          nblocks_le := (hn.dir ht).nblocks_le
          used_iff := (hn.dir ht).used_iff
          adjacent := (hn.dir ht).adjacent
          slot_ok := (hn.dir ht).slot_ok }
      file := hn.file }
  disjoint := h.disjoint
  next := h.next
  bounded := h.bounded

end Seek

/-- The globals and the image are the same; the descriptor may have moved. -/
structure Unchanged (s t : Server) : Prop where
  imap_eq : t.imap = s.imap
  next_eq : t.nextBlock = s.nextBlock
  size_eq : t.file.size = s.file.size
  byte_eq : t.file.byte = s.file.byte

theorem Unchanged.seek (s : Server) (p : Nat) : Unchanged s (s.seek p) := ⟨rfl, rfl, rfl, rfl⟩

/-! ## `find_inode` -/

theorem not_inRange_iff {i : Int32} : ¬ InRange i ↔ i < 0 ∨ i ≥ 4096 := by
  simp only [InRange, not_and_or, Int32.not_le, Int32.not_lt, ge_iff_le]

theorem findInode_of_not_inRange {i : Int32} (h : ¬ InRange i) (s : Server) (node : Inode) :
    findInode s i node = (-1, node, s) := by
  rw [findInode, if_pos (not_inRange_iff.mp h)]

theorem lseek_moves (f : File) (off : Int) : ∃ p, f.lseek off = f.seekTo p := by
  rw [File.lseek]
  split
  · exact ⟨f.pos, rfl⟩
  · exact ⟨off.toNat, rfl⟩

theorem readDirectory_moves (f : File) (off : Int) (d : Directory) :
    ∃ d' q, readDirectory (f.lseek off) d = (d', f.seekTo q) := by
  obtain ⟨p, hp⟩ := lseek_moves f off
  rw [hp]
  exact ⟨_, p + (f.seekTo p).avail blockSize, rfl⟩

/-- Whatever it reads, `find_inode` only moves the descriptor, and it accepts every number in
range. -/
theorem findInode_moves (s : Server) (i : Int32) (node : Inode) :
    ∃ n q, findInode s i node = (if InRange i then 0 else -1, n, s.seek q) := by
  by_cases hi : InRange i
  · obtain ⟨p, hp⟩ := lseek_moves s.file (blockOff (s.imap i))
    rw [if_pos hi, findInode, if_neg (fun hc => not_inRange_iff.mpr hc hi), hp]
    exact ⟨_, p + (s.file.seekTo p).avail inodeSize, rfl⟩
  · refine ⟨node, s.file.pos, ?_⟩
    rw [if_neg hi, findInode_of_not_inRange hi, seek_self]

/-- A free inode number in range: the seek fails, and the inode is read where the descriptor
stands. -/
theorem findInode_free {s : Server} {i x : Int32} (hr : InRange i) (hi : s.imap i = -1) (hx : Fits x)
    (hsize : blk x * 4096 + 124 ≤ s.file.size) (node : Inode) :
    findInode (s.seek (blk x * 4096)) i node =
      (0, inodeAt s.file x, s.seek (blk x * 4096 + 124)) := by
  have hneg : blockOff (-1) < 0 := by decide
  have hread := readInode_block hx hsize node
  rw [lseek_block hx] at hread
  rw [findInode, if_neg (fun hc => not_inRange_iff.mpr hc hr), seek_imap, seek_file, hi,
    File.lseek_of_neg _ hneg, hread]
  rfl

section WellFormed

variable {s : Server} {i : Int32}

theorem WF.fits (h : WF s) {x : Int32} (hx : s.Owns i x) : Fits x :=
  (h.node i hx.1).fits h.bounded hx

theorem WF.fits_next (h : WF s) : Fits s.nextBlock := by
  have hnext := h.next
  exact ⟨by omega, h.bounded⟩

theorem WF.owned_ne_next (h : WF s) {x : Int32} (hx : s.Owns i x) : blk x ≠ blk s.nextBlock := by
  have hrange := (h.node i hx.1).owned x hx
  have h1 := blk_eq (x := x) (by omega)
  have h2 := blk_eq (x := s.nextBlock) (by omega)
  omega

theorem WF.findInode_eq (h : WF s) (ha : s.Allocated i) (node : Inode) :
    findInode s i node = (0, s.inode i, s.seek (blk (s.imap i) * 4096 + 124)) := by
  have hr := h.inRange i ha
  rw [findInode, if_neg (fun hc => not_inRange_iff.mpr hc hr),
    readInode_block (h.fits (NodeWF.owns_inode ha)) (h.node i ha).inode_end]
  rfl

/-- Reading a used direct block of an allocated inode. -/
theorem WF.readDirectory_eq (h : WF s) (ha : s.Allocated i) {k : Fin 14}
    (hk : (s.inode i).dpUsed k = 1) (d : Directory) (p : Nat) :
    readDirectory ((s.file.seekTo p).lseek (blockOff ((s.inode i).dpointers k))) d =
      (dirAt s.file ((s.inode i).dpointers k),
        s.file.seekTo (blk ((s.inode i).dpointers k) * 4096 + 4096)) := by
  rw [readDirectory_block (h.fits (NodeWF.owns_block ha hk))
    (by simpa using (h.node i ha).block_end k hk)]
  simp

/-! ## Slots of a directory block -/

namespace Directory

variable {d : Directory} {e : Fin 128}

theorem label_slot (h : d.SlotOK e) : SlotTable.label marker (d.slot e) = cstr (d.names e) := by
  rcases h with ⟨hfree, hname⟩ | ⟨hlive, _⟩
  · simp [slot, hfree, SlotTable.label, hname]
  · have hne : d.inums e ≠ -1 := by
      intro heq
      rw [heq] at hlive
      exact absurd hlive (by decide)
    simp [slot, hne, SlotTable.label]

theorem value_slot : ((d.slot e).map Prod.snd).getD (-1) = d.inums e := by
  by_cases h : d.inums e = -1
  · simp [slot, h]
  · simp [slot, h]

/-- The scan by name of a block is the search for its first slot of that name. -/
theorem find?_slots (h : ∀ e, d.SlotOK e) (name : Name) :
    (d.slots.find? fun sl => SlotTable.label marker sl = name.bytes) =
      (d.findName name).map d.slot := by
  have hpred : (fun e => decide (cstr (d.names e) = name.bytes)) =
      (fun sl => decide (SlotTable.label marker sl = name.bytes)) ∘ d.slot := by
    funext e
    simp only [Function.comp_apply, label_slot (h e)]
  rw [slots, List.find?_map, findName, hpred]

@[simp] theorem length_slots : d.slots.length = 128 := by
  simp [slots]

end Directory

/-! ## `lookup_server` -/

/-- One turn of the loop of `lookup_server` on a used direct pointer. -/
theorem lookupLoop_used {pinode : Inode} {name : Name} {k : Fin 14} {is : List (Fin 14)}
    {d d' : Directory} {f' : File} (hk : pinode.dpUsed k = 1)
    (hread : readDirectory (s.file.lseek (blockOff (pinode.dpointers k))) d = (d', f')) :
    lookupLoop pinode name (k :: is) d s =
      match d'.findName name with
      | some j => (d'.inums j, { s with file := f' })
      | none => lookupLoop pinode name is d' { s with file := f' } := by
  cases hfind : d'.findName name <;> simp only [lookupLoop, if_pos hk, hread, hfind]

theorem lookupLoop_unused {pinode : Inode} {name : Name} {k : Fin 14} {is : List (Fin 14)}
    {d : Directory} (hk : pinode.dpUsed k ≠ 1) :
    lookupLoop pinode name (k :: is) d s = lookupLoop pinode name is d s := by
  simp only [lookupLoop, if_neg hk]

/-- What the loop of `lookup_server` returns when every read is full. -/
def lookupVal (f : File) (n : Inode) (name : Name) (is : List (Fin 14)) : Int32 :=
  (is.findSome? fun k =>
    if n.dpUsed k = 1 then
      ((dirAt f (n.dpointers k)).findName name).map (dirAt f (n.dpointers k)).inums
    else none).getD (-1)

theorem lookupVal_used {f : File} {n : Inode} {name : Name} {k : Fin 14} {is : List (Fin 14)}
    (hk : n.dpUsed k = 1) :
    lookupVal f n name (k :: is) =
      match (dirAt f (n.dpointers k)).findName name with
      | some j => (dirAt f (n.dpointers k)).inums j
      | none => lookupVal f n name is := by
  cases hfind : (dirAt f (n.dpointers k)).findName name <;>
    simp only [lookupVal, List.findSome?_cons, if_pos hk, hfind, Option.map_none, Option.map_some,
      Option.getD_some]

theorem lookupVal_unused {f : File} {n : Inode} {name : Name} {k : Fin 14} {is : List (Fin 14)}
    (hk : n.dpUsed k ≠ 1) : lookupVal f n name (k :: is) = lookupVal f n name is := by
  simp only [lookupVal, List.findSome?_cons, if_neg hk]

theorem lookupLoop_eq (h : WF s) (ha : s.Allocated i) (name : Name) (is : List (Fin 14))
    (d : Directory) (p : Nat) :
    ∃ q, lookupLoop (s.inode i) name is d (s.seek p) =
      (lookupVal s.file (s.inode i) name is, s.seek q) := by
  induction is generalizing d p with
  | nil => exact ⟨p, rfl⟩
  | cons k is ih =>
      by_cases hk : (s.inode i).dpUsed k = 1
      · rw [lookupLoop_used (s := s.seek p) hk (h.readDirectory_eq ha hk d p), lookupVal_used hk]
        cases (dirAt s.file ((s.inode i).dpointers k)).findName name with
        | some j => exact ⟨_, rfl⟩
        | none => exact ih _ _
      · rw [lookupLoop_unused hk, lookupVal_unused hk]
        exact ih d p

theorem lookupVal_eq_lookup {f : File} {n : Inode} {name : Name} (bs : List (Fin 14))
    (hused : ∀ k ∈ bs, n.dpUsed k = 1)
    (hok : ∀ k ∈ bs, ∀ e, (dirAt f (n.dpointers k)).SlotOK e) :
    lookupVal f n name bs =
      (SlotTable.lookup marker (bs.flatMap fun k => (dirAt f (n.dpointers k)).slots)
        name.bytes).getD (-1) := by
  induction bs with
  | nil => rfl
  | cons k bs ih =>
      rw [lookupVal_used (hused k List.mem_cons_self), List.flatMap_cons, SlotTable.lookup_append,
        Directory.find?_slots (hok k List.mem_cons_self)]
      cases (dirAt f (n.dpointers k)).findName name with
      | some j => exact Directory.value_slot.symm
      | none =>
          exact ih (fun k' hk' => hused k' (List.mem_cons_of_mem _ hk'))
            (fun k' hk' => hok k' (List.mem_cons_of_mem _ hk'))

theorem lookupVal_append_unused {f : File} {n : Inode} {name : Name} (bs cs : List (Fin 14))
    (hcs : ∀ k ∈ cs, n.dpUsed k ≠ 1) : lookupVal f n name (bs ++ cs) = lookupVal f n name bs := by
  have hnone : lookupVal f n name cs = -1 := by
    induction cs with
    | nil => rfl
    | cons k cs ih =>
        rw [lookupVal_unused (hcs k List.mem_cons_self)]
        exact ih fun k' hk' => hcs k' (List.mem_cons_of_mem _ hk')
  induction bs with
  | nil => exact hnone
  | cons k bs ih =>
      by_cases hk : n.dpUsed k = 1
      · rw [List.cons_append, lookupVal_used hk, lookupVal_used hk, ih]
      · rw [List.cons_append, lookupVal_unused hk, lookupVal_unused hk, ih]

/-- On a directory the loop computes the abstract lookup. -/
theorem lookupVal_dir {f : File} {x : Int32} {n : Inode} (h : DirShape f x n) (name : Name) :
    lookupVal f n name (List.finRange 14) = lookupSlots (dirSlots f n) name := by
  have hsplit : List.finRange 14 = firstBlocks n.nblocks ++ (List.finRange 14).drop n.nblocks :=
    (List.take_append_drop _ _).symm
  rw [hsplit, lookupVal_append_unused]
  · refine lookupVal_eq_lookup _ ?_ ?_
    · exact fun k hk => (h.used_iff k).mpr (mem_firstBlocks.mp hk)
    · exact fun k hk => h.slot_ok k ((h.used_iff k).mpr (mem_firstBlocks.mp hk))
  · intro k hk hused
    have hlt := (h.used_iff k).mp hused
    obtain ⟨q, hq, rfl⟩ := List.mem_drop_iff_getElem.mp hk
    simp only [List.getElem_finRange, Fin.val_cast] at hlt
    omega

theorem decode_dataAt (f : File) (x : Int32) : Directory.decode (dataAt f x).mem = dirAt f x := by
  refine Directory.decode_congr ?_
  intro o ho
  simp only [blockSize] at ho
  simp [Block.mem, ho, dataAt, blockOf]

/-- On a regular file the loop reads data blocks as directory blocks. -/
theorem lookupVal_file (f : File) (n : Inode) (name : Name) :
    lookupVal f n name (List.finRange 14) = lookupBlocks (fileBlocks f n) name := by
  rw [lookupVal, lookupBlocks]
  congr 2
  funext k
  by_cases hk : n.dpUsed k = 1
  · simp only [fileBlocks, if_pos hk, Option.bind_some, decode_dataAt]
  · simp only [fileBlocks, if_neg hk, Option.bind_none]

theorem WF.lookupVal_eq (h : WF s) (ha : s.Allocated i) (name : Name) :
    lookupVal s.file (s.inode i) name (List.finRange 14) = s.tree.lookup i name := by
  rw [Fs.lookup, tree_of_allocated ha, nodeOf]
  by_cases htype : (s.inode i).type = mfsDirectory
  · simp only [if_pos htype]
    exact lookupVal_dir ((h.node i ha).dir htype) name
  · simp only [if_neg htype]
    exact lookupVal_file _ _ _

/-- `lookup_server` returns what the abstract file system says and only moves the descriptor. -/
theorem WF.lookupServer_eq (h : WF s) (ha : s.Allocated i) (name : Name) (st : Stack) (p : Nat) :
    ∃ q, lookupServer (s.seek p) i name st = (s.tree.lookup i name, s.seek q) := by
  obtain ⟨q, hq⟩ := lookupLoop_eq h ha name (List.finRange 14) st.lookupDirect
    (blk (s.imap i) * 4096 + 124)
  refine ⟨q, ?_⟩
  rw [lookupServer, (h.seek p).findInode_eq (i := i) ha]
  simp only [ne_eq, not_true_eq_false, if_false, seek_inode, seek_seek, seek_imap]
  rw [hq, h.lookupVal_eq ha]

/-- When the first block has the name, the loop stops there, and so does the descriptor. -/
theorem WF.lookupServer_first (h : WF s) (ha : s.Allocated i) (hused : (s.inode i).dpUsed 0 = 1)
    {name : Name} {j : Fin 128} (hfind : (dirAt s.file ((s.inode i).dpointers 0)).findName name = some j)
    (st : Stack) (p : Nat) :
    lookupServer (s.seek p) i name st = ((dirAt s.file ((s.inode i).dpointers 0)).inums j,
      s.seek (blk ((s.inode i).dpointers 0) * 4096 + 4096)) := by
  rw [lookupServer, (h.seek p).findInode_eq (i := i) ha]
  simp only [ne_eq, not_true_eq_false, if_false, seek_inode, seek_seek, seek_imap]
  rw [List.finRange_succ, lookupLoop_used (s := s.seek _) hused
    (h.readDirectory_eq ha hused st.lookupDirect _), hfind]
  rfl

/-! ## `stat_server`, and `read_server` on a written block -/

theorem length_dirSlots (f : File) {n : Inode} (h : n.nblocks ≤ 14) :
    (dirSlots f n).length = 128 * n.nblocks := by
  have hlen : (firstBlocks n.nblocks).length = n.nblocks := by
    simp [firstBlocks, h]
  simp [dirSlots, List.length_flatMap, hlen, Nat.mul_comm]

theorem WF.stat_eq (h : WF s) (ha : s.Allocated i) :
    s.tree.stat i = some { type := (s.inode i).type, size := (s.inode i).size } := by
  have hn := h.node i ha
  rw [Fs.stat, tree_of_allocated ha, nodeOf]
  by_cases htype : (s.inode i).type = mfsDirectory
  · have hshape := hn.dir htype
    have hlen : 32 * (dirSlots s.file (s.inode i)).length = 4096 * (s.inode i).nblocks := by
      rw [length_dirSlots s.file hshape.nblocks_le]
      omega
    rw [if_pos htype]
    simp only [hlen, ← hshape.size_eq, htype]
  · rw [if_neg htype, (hn.type_ok.resolve_left htype)]

theorem WF.statServer_eq (h : WF s) (ha : s.Allocated i) (m : Stat) (st : Stack) :
    statServer s i m st = (0, { type := (s.inode i).type, size := (s.inode i).size },
      s.seek (blk (s.imap i) * 4096 + 124)) := by
  rw [statServer, h.findInode_eq ha]
  simp

/-- Reading a block of the image inside the file. -/
theorem read_block {f : File} {x : Int32} (h : Fits x) (hsize : blk x * 4096 + 4096 ≤ f.size)
    (buffer : Mem) :
    (f.lseek (blockOff x)).read buffer blockSize =
      (fun o => if o < 4096 then f.blockAt 4096 (blk x) o else buffer o,
        f.seekTo (blk x * 4096 + 4096)) := by
  rw [lseek_block h, File.read_full _ (by simpa using hsize)]
  rfl

/-- `read_server` on a regular file. -/
theorem readServer_regular {s' : Server} {node : Inode} {buffer : Block} {block : Int32}
    {k : Fin 14} {st : Stack} {m : Mem} {f : File} (hfind : findInode s i st.node = (0, node, s'))
    (hblock : blockIndex block = some k) (hfile : node.type = mfsRegularFile)
    (hread : (s'.file.lseek (blockOff (node.dpointers k))).read buffer.mem blockSize = (m, f)) :
    readServer s i buffer block st = (0, blockOf m, { s' with file := f }) := by
  unfold readServer
  simp [hfind, hblock, hfile, hread]

/-- Reading a written block of a regular file returns its contents. -/
theorem WF.readServer_file (h : WF s) (ha : s.Allocated i) (hfile : (s.inode i).type = mfsRegularFile)
    {block : Int32} {k : Fin 14} (hblock : blockIndex block = some k)
    (hk : (s.inode i).dpUsed k = 1) (buffer : Block) (st : Stack) :
    ∃ q, readServer s i buffer block st = (0, dataAt s.file ((s.inode i).dpointers k), s.seek q) := by
  have hread := read_block (f := s.file.seekTo (blk (s.imap i) * 4096 + 124))
    (h.fits (NodeWF.owns_block ha hk)) ((h.node i ha).block_end k hk) buffer.mem
  refine ⟨blk ((s.inode i).dpointers k) * 4096 + 4096, ?_⟩
  rw [readServer_regular (h.findInode_eq ha st.node) hblock hfile hread]
  have hdata : blockOf (fun o => if o < 4096 then
      (s.file.seekTo (blk (s.imap i) * 4096 + 124)).blockAt 4096
        (blk ((s.inode i).dpointers k)) o else buffer.mem o) =
      dataAt s.file ((s.inode i).dpointers k) :=
    blockOf_congr fun o ho => if_pos ho
  rw [hdata]
  rfl

end WellFormed

/-! ## `lookup_server` and `read_server` in general -/

theorem lookupLoop_moves (pinode : Inode) (name : Name) (is : List (Fin 14)) (d : Directory)
    (s : Server) : ∃ rc q, lookupLoop pinode name is d s = (rc, s.seek q) := by
  induction is generalizing d s with
  | nil => exact ⟨-1, s.file.pos, rfl⟩
  | cons k is ih =>
      by_cases hk : pinode.dpUsed k = 1
      · obtain ⟨d', q, hread⟩ := readDirectory_moves s.file (blockOff (pinode.dpointers k)) d
        rw [lookupLoop_used hk hread]
        cases d'.findName name with
        | some j => exact ⟨_, q, rfl⟩
        | none => exact ih d' (s.seek q)
      · rw [lookupLoop_unused hk]
        exact ih d s

theorem lookupServer_moves (s : Server) (p : Int32) (name : Name) (st : Stack) :
    ∃ q, (lookupServer s p name st).2 = s.seek q := by
  obtain ⟨node, q, hfind⟩ := findInode_moves s p st.pinode
  obtain ⟨rc, q', hloop⟩ := lookupLoop_moves node name (List.finRange 14) st.lookupDirect (s.seek q)
  by_cases hi : InRange p
  · rw [if_pos hi] at hfind
    refine ⟨q', ?_⟩
    rw [lookupServer, hfind]
    simp only [ne_eq, not_true_eq_false, if_false]
    rw [hloop]
    rfl
  · rw [if_neg hi] at hfind
    refine ⟨q, ?_⟩
    rw [lookupServer, hfind]
    rfl

theorem readDirLoop_moves (inum : Int32) (pnode : Inode) (is : List (Fin 14)) (ent : Option DirEnt)
    (d : Directory) (s : Server) :
    ∃ ent' q, readDirLoop inum pnode is ent d s = (ent', s.seek q) := by
  induction is generalizing ent d s with
  | nil => exact ⟨ent, s.file.pos, rfl⟩
  | cons k is ih =>
      by_cases hk : pnode.dpUsed k = 1
      · obtain ⟨d', q, hread⟩ := readDirectory_moves s.file (blockOff (pnode.dpointers k)) d
        obtain ⟨ent', q', hloop⟩ := ih (dirEntOf inum d' ent) d' (s.seek q)
        refine ⟨ent', q', ?_⟩
        simp only [readDirLoop, if_pos hk, hread]
        exact hloop
      · simp only [readDirLoop, if_neg hk]
        exact ih ent d s

theorem readDirEnt_moves (i : Int32) (node : Inode) (buffer : Block) (st : Stack) (s : Server) :
    ∃ b q, readDirEnt i node buffer st s = (b, s.seek q) := by
  obtain ⟨pnode, q, hparent⟩ := findInode_moves s (node.dpointers 1) st.pnode
  obtain ⟨ent, q', hloop⟩ :=
    readDirLoop_moves i pnode (List.finRange 14) (some st.dirEnt) st.direct (s.seek q)
  unfold readDirEnt
  rw [hparent]
  simp only []
  rw [hloop]
  cases ent with
  | some ent => exact ⟨blockOf fun o => if o < 32 then ent.encode o else buffer.mem o, q', rfl⟩
  | none => exact ⟨st.overrun, q', rfl⟩

theorem readServer_dir {s s₁ s₂ : Server} {i : Int32} {node : Inode} {buffer b : Block}
    {block : Int32} {k : Fin 14} {st : Stack} (hfind : findInode s i st.node = (0, node, s₁))
    (hblock : blockIndex block = some k) (hdir : node.type ≠ mfsRegularFile)
    (hread : readDirEnt i node buffer st s₁ = (b, s₂)) :
    readServer s i buffer block st = (0, b, s₂) := by
  unfold readServer
  simp [hfind, hblock, hdir, hread]

/-- Whatever it reads, `read_server` only moves the descriptor, and it accepts every inode number in
range with a block number in range. -/
theorem readServer_moves (s : Server) (i : Int32) (buffer : Block) (block : Int32) (st : Stack) :
    ∃ b q, readServer s i buffer block st =
      (if InRange i ∧ (blockIndex block).isSome then 0 else -1, b, s.seek q) := by
  obtain ⟨node, q, hfind⟩ := findInode_moves s i st.node
  by_cases hi : InRange i
  swap
  · rw [if_neg hi] at hfind
    refine ⟨buffer, q, ?_⟩
    unfold readServer
    simp [hfind, hi]
  rw [if_pos hi] at hfind
  cases hblock : blockIndex block with
  | none =>
      refine ⟨buffer, q, ?_⟩
      unfold readServer
      simp [hfind, hblock]
  | some k =>
      rw [if_pos ⟨hi, rfl⟩]
      by_cases htype : node.type = mfsRegularFile
      · obtain ⟨p, hp⟩ := lseek_moves (s.seek q).file (blockOff (node.dpointers k))
        have hread : ((s.seek q).file.lseek (blockOff (node.dpointers k))).read buffer.mem blockSize =
            (((s.file.seekTo p).read buffer.mem blockSize).1,
              s.file.seekTo (p + (s.file.seekTo p).avail blockSize)) := by
          rw [hp]
          rfl
        rw [readServer_regular hfind hblock htype hread]
        exact ⟨_, _, rfl⟩
      · obtain ⟨b, q', hread⟩ := readDirEnt_moves i node buffer st (s.seek q)
        exact ⟨b, q', readServer_dir hfind hblock htype hread⟩

end Linux
end LfsXv6
