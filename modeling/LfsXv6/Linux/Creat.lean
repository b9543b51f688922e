import LfsXv6.Linux.TreeStep
import LfsXv6.Linux.Update

/-!
# Creat — `creat_server` refines the abstract creation

The loop over the parent's blocks finds the first free entry of the directory, in block order; when
every block is full it extends the directory by one block and takes its first entry.  The entry is
stored before the type is looked at.
-/

namespace LfsXv6
namespace Linux

open Lib

/-! ## The lowest free inode number -/

theorem freeInum_tree (s : Server) : s.tree.freeInum = freeInum s.imap := by
  have hpred : (fun i : Nat => (s.tree (Int32.ofNat i)).isNone) =
      fun i => decide (s.imap (Int32.ofNat i) = -1) := by
    funext i
    rw [Bool.eq_iff_iff, Option.isNone_iff_eq_none, tree_eq_none_iff, decide_eq_true_iff]
  unfold Fs.freeInum freeInum
  rw [hpred]

theorem freeInum_spec {s : Server} (h : freeInum s.imap ≠ -1) : InRange (freeInum s.imap) := by
  rw [← freeInum_tree] at h ⊢
  exact (Fs.freeInum_spec h).1

/-! ## The search for a free entry -/

/-- First free entry in the direct blocks `bs`, in order. -/
def findSlot (f : File) (n : Inode) (bs : List (Fin 14)) : Option (Fin 14 × Fin 128) :=
  bs.findSome? fun k => (dirAt f (n.dpointers k)).findFree.map fun e => (k, e)

theorem slotsWith_of_not_mem {f : File} {n : Inode} {bs : List (Fin 14)} {k : Fin 14}
    (hk : k ∉ bs) (d : Directory) :
    slotsWith f n bs k d = bs.flatMap fun j => (dirAt f (n.dpointers j)).slots := by
  refine List.flatMap_congr ?_
  intro j hj
  have hne : ¬ j = k := fun hc => hk (hc ▸ hj)
  rw [if_neg hne]

theorem mem_of_findSlot {f : File} {n : Inode} {bs : List (Fin 14)} {k : Fin 14} {e : Fin 128}
    (h : findSlot f n bs = some (k, e)) :
    k ∈ bs ∧ (dirAt f (n.dpointers k)).findFree = some e := by
  obtain ⟨j, hj, hmap⟩ := List.exists_of_findSome?_eq_some h
  obtain ⟨e', he', heq⟩ := Option.map_eq_some_iff.mp hmap
  obtain ⟨rfl, rfl⟩ := Prod.mk.inj heq
  exact ⟨hj, he'⟩

/-- Storing at the first free entry of the blocks is insertion into the directory's slot table. -/
theorem insert_flatMap_slots {f : File} {n : Inode} (name : Name) {inum : Int32} (hi : inum ≠ -1)
    (bs : List (Fin 14)) (hnodup : bs.Nodup) :
    SlotTable.insert (name.bytes, inum) (bs.flatMap fun k => (dirAt f (n.dpointers k)).slots) =
      (findSlot f n bs).map fun x =>
        slotsWith f n bs x.1 ((dirAt f (n.dpointers x.1)).setEntry x.2 inum name) := by
  induction bs with
  | nil => rfl
  | cons k bs ih =>
      obtain ⟨hnot, hnodup⟩ := List.nodup_cons.mp hnodup
      rw [List.flatMap_cons, SlotTable.insert_append, Directory.insert_slots hi, findSlot,
        List.findSome?_cons]
      cases (dirAt f (n.dpointers k)).findFree with
      | some e =>
          simp only [Option.map_some]
          rw [slotsWith, List.flatMap_cons, if_pos rfl]
          exact congrArg (fun l => some (_ ++ l)) (slotsWith_of_not_mem hnot _).symm
      | none =>
          simp only [Option.map_none]
          rw [ih hnodup, ← findSlot]
          cases hfind : findSlot f n bs with
          | none => rfl
          | some x =>
              have hne : ¬ k = x.1 := fun hc => hnot (hc ▸ (mem_of_findSlot hfind).1)
              simp only [Option.map_some]
              rw [slotsWith, slotsWith, List.flatMap_cons, if_neg hne]

/-! ## One turn of the loop -/

section Loop

variable {pinum type inum : Int32} {name : Name} {st : Stack} {k : Fin 14} {bs : List (Fin 14)}
  {parent : Inode} {block d : Directory} {s : Server} {f : File}

theorem creatLoop_used (hk : parent.dpUsed k ≠ 0)
    (hread : readDirectory (s.file.lseek (blockOff (parent.dpointers k))) block = (d, f)) :
    creatLoop pinum type name inum st (k :: bs) parent block s =
      match d.findFree with
      | some e => creatAt pinum type name inum st k e parent d { s with file := f }
      | none => creatLoop pinum type name inum st bs parent d { s with file := f } := by
  cases hfree : d.findFree <;> simp only [creatLoop, if_pos hk, hread, hfree]

theorem creatLoop_extend {parent' : Inode} {u : Server} {e : Fin 128} (hk : parent.dpUsed k = 0)
    (hext : extendParent inum st k parent s = (parent', u))
    (hread : readDirectory (u.file.lseek (blockOff (parent'.dpointers k))) block = (d, f))
    (hfree : d.findFree = some e) :
    creatLoop pinum type name inum st (k :: bs) parent block s =
      creatAt pinum type name inum st k e parent' d { u with file := f } := by
  have hk' : ¬ parent.dpUsed k ≠ 0 := not_not.mpr hk
  simp only [creatLoop, if_neg hk', hext, hread, hfree]

end Loop

/-- The loop over blocks that are in use: it stops at the first free entry, or leaves the
directory unchanged and goes on. -/
theorem WF.creatLoop_eq {s : Server} (h : WF s) {pinum : Int32} (ha : s.Allocated pinum)
    (type inum : Int32) (name : Name) (st : Stack) (bs rest : List (Fin 14))
    (hused : ∀ k ∈ bs, (s.inode pinum).dpUsed k = 1) (block : Directory) (q : Nat) :
    (∃ k e q', findSlot s.file (s.inode pinum) bs = some (k, e) ∧
      creatLoop pinum type name inum st (bs ++ rest) (s.inode pinum) block (s.seek q) =
        creatAt pinum type name inum st k e (s.inode pinum)
          (dirAt s.file ((s.inode pinum).dpointers k)) (s.seek q')) ∨
    (findSlot s.file (s.inode pinum) bs = none ∧ ∃ block' q',
      creatLoop pinum type name inum st (bs ++ rest) (s.inode pinum) block (s.seek q) =
        creatLoop pinum type name inum st rest (s.inode pinum) block' (s.seek q')) := by
  induction bs generalizing block q with
  | nil => exact Or.inr ⟨rfl, block, q, rfl⟩
  | cons k bs ih =>
      have hk := hused k List.mem_cons_self
      have hne : (s.inode pinum).dpUsed k ≠ 0 := by
        rw [hk]
        decide
      rw [List.cons_append,
        creatLoop_used (s := s.seek q) hne (h.readDirectory_eq ha hk block q), findSlot,
        List.findSome?_cons]
      cases (dirAt s.file ((s.inode pinum).dpointers k)).findFree with
      | some e => exact Or.inl ⟨k, e, _, rfl, rfl⟩
      | none => exact ih (fun k' hk' => hused k' (List.mem_cons_of_mem _ hk')) _ _

/-! ## The entry is stored -/

/-- The server `v` differs from `s` in one directory, which now holds `slots`; `c` blocks were taken
from the end of the log. -/
structure Stored (s : Server) (p : Int32) (slots : List DirSlot) (c : Nat) (v : Server) : Prop where
  wf : WF v
  tree_eq : v.tree = Function.update s.tree p (some (.dir slots))
  imap_eq : v.imap = s.imap
  next_eq : v.nextBlock.toInt = s.nextBlock.toInt + c
  writes : ∃ ws, v.file = s.file.pwrites ws ∧ ∀ w ∈ ws, WriteOK s p w ∧ InLog w

section Store

variable {s : Server} {p type inum : Int32} {name : Name} {st : Stack}

/-- The server after an entry was stored in a block the directory already had. -/
def storeEntry (s : Server) (p inum : Int32) (name : Name) (k : Fin 14) (e : Fin 128) (past : Mem) :
    Server :=
  putBlock (rewriteInode s p past) p k ((dirAt s.file ((s.inode p).dpointers k)).setEntry e inum name)

theorem WF.creatAt_eq (h : WF s) (ha : s.Allocated p) {k : Fin 14} (hk : (s.inode p).dpUsed k = 1)
    (e : Fin 128) (q : Nat) :
    creatAt p type name inum st k e (s.inode p) (dirAt s.file ((s.inode p).dpointers k)) (s.seek q) =
      creatNode p type inum st (storeEntry s p inum name k e st.pastParent) := by
  rw [creatAt, seek_imap, seek_file, write_block (h.fits (NodeWF.owns_inode ha)),
    write_block (h.fits (NodeWF.owns_block ha hk)), File.pwrite_seekTo]
  rw [storeEntry, putBlock, rewriteInode_inode]
  rfl

variable (name) in
theorem WF.storeEntry_stored (h : WF s) (ha : s.Allocated p) (hdir : (s.inode p).type = mfsDirectory)
    (hi : InRange inum) {k : Fin 14} {e : Fin 128}
    (hfind : findSlot s.file (s.inode p) (firstBlocks (s.inode p).nblocks) = some (k, e)) (past : Mem) :
    ∃ slots, SlotTable.insert (name.bytes, inum) (dirSlots s.file (s.inode p)) = some slots ∧
      Stored s p slots 0 (storeEntry s p inum name k e past) := by
  have hn := h.node p ha
  have hshape := hn.dir hdir
  have hk : (s.inode p).dpUsed k = 1 :=
    (hshape.used_iff k).mpr (mem_firstBlocks.mp (mem_of_findSlot hfind).1)
  obtain ⟨hwf, htree⟩ := h.rewriteInode_wf ha past
  have hinode := rewriteInode_inode (s := s) (p := p) past
  have hslot : ∀ e', ((dirAt s.file ((s.inode p).dpointers k)).setEntry e inum name).SlotOK e' :=
    Directory.SlotOK.setEntry (hshape.slot_ok k hk) hi
  obtain ⟨hwf', htree'⟩ := hwf.putBlock_wf (p := p) ha (by rw [hinode]; exact hdir)
    (by rw [hinode]; exact hk) hslot
  have hdirAt : ∀ j, (s.inode p).dpUsed j = 1 → dirAt (rewriteInode s p past).file
      ((s.inode p).dpointers j) = dirAt s.file ((s.inode p).dpointers j) := fun j hj =>
    (h.rewriteInode_same ha (NodeWF.owns_block ha hj) (hn.apart j hj) past).dirAt
  have hwith : slotsWith (rewriteInode s p past).file (s.inode p) (firstBlocks (s.inode p).nblocks) k
      ((dirAt s.file ((s.inode p).dpointers k)).setEntry e inum name) =
      slotsWith s.file (s.inode p) (firstBlocks (s.inode p).nblocks) k
        ((dirAt s.file ((s.inode p).dpointers k)).setEntry e inum name) := by
    refine List.flatMap_congr ?_
    intro j hj
    rw [hdirAt j ((hshape.used_iff j).mpr (mem_firstBlocks.mp hj))]
  rw [hinode, hwith, htree] at htree'
  refine ⟨_, ?_, hwf', htree', rfl, by simp [storeEntry, putBlock, rewriteInode], ?_⟩
  · rw [dirSlots, insert_flatMap_slots name hi.ne_neg_one _ (nodup_firstBlocks _), hfind]
    rfl
  · refine ⟨[⟨blk (s.imap p) * 4096, 4096, parentMem (s.inode p) past⟩,
      ⟨blk ((s.inode p).dpointers k) * 4096, 4096,
        ((dirAt s.file ((s.inode p).dpointers k)).setEntry e inum name).encode⟩], ?_, ?_⟩
    · rw [storeEntry, putBlock, hinode]
      rfl
    · intro w hw
      simp only [List.mem_cons, List.not_mem_nil, or_false] at hw
      rcases hw with rfl | rfl
      · exact ⟨WF.writeOK_inode ha (Nat.le_refl _) _, h.inLog_owned (NodeWF.owns_inode ha) _ _⟩
      · exact ⟨WF.writeOK_block ha hk (Nat.le_refl _) _, h.inLog_owned (NodeWF.owns_block ha hk) _ _⟩

/-- The server after the directory was extended and its new block got the entry. -/
def storeExtended (s : Server) (p inum : Int32) (name : Name) (k : Fin 14) (d : Directory) (past : Mem) :
    Server :=
  putBlock (extendDir s p k d past) p k (d.setEntry 0 inum name)

/-- The block `build_dir_block(0, inum, -1)` writes for pointer `k`. -/
def extensionBlock (inum : Int32) (st : Stack) (k : Fin 14) : Directory :=
  newDirBlock false inum (-1) (st.extension k)

theorem WF.extendParent_eq (h : WF s) (n : Inode) (k : Fin 14) (q : Nat) :
    extendParent inum st k n (s.seek q) =
      (n.extended k s.nextBlock,
        { s with
          nextBlock := s.nextBlock + 1
          file := s.file.pwrite
            ⟨blk s.nextBlock * 4096, 4096, (extensionBlock inum st k).encode⟩ }) := by
  simp only [extendParent, buildDirBlock, seek_file, seek_nextBlock, seek_imap]
  rw [write_block h.fits_next, File.pwrite_seekTo, succ_sub_one]
  rfl

/-- When every block is full the loop adds one and stores the entry there. -/
theorem WF.creatLoop_full (h : WF s) (ha : s.Allocated p) {k : Fin 14}
    (hk : (s.inode p).dpUsed k = 0) (bs : List (Fin 14)) (block : Directory) (q : Nat) :
    creatLoop p type name inum st (k :: bs) (s.inode p) block (s.seek q) =
      creatNode p type inum st
        (storeExtended s p inum name k (extensionBlock inum st k) st.pastParent) := by
  have hptr : ((s.inode p).extended k s.nextBlock).dpointers k = s.nextBlock := by
    rw [extended_dpointers, Function.update_self]
  have hsize : blk s.nextBlock * 4096 + 4096 ≤ (s.file.pwrite
      ⟨blk s.nextBlock * 4096, 4096, (extensionBlock inum st k).encode⟩).size :=
    File.end_le_size_pwrite (w := ⟨blk s.nextBlock * 4096, 4096, _⟩) (by simp)
  have hread := readDirectory_block h.fits_next hsize block
  rw [dirAt_pwrite_self] at hread
  rw [creatLoop_extend hk (h.extendParent_eq _ k q) (by rw [hptr]; exact hread)
    Directory.newDirBlock_false_findFree, creatAt, hptr]
  simp only []
  rw [write_block (h.fits (NodeWF.owns_inode ha)), write_block h.fits_next, File.pwrite_seekTo]
  rw [storeExtended, putBlock, extendDir_inode, hptr]
  rfl

theorem WF.storeExtended_stored (h : WF s) (ha : s.Allocated p)
    (hdir : (s.inode p).type = mfsDirectory) (hi : InRange inum) {k : Fin 14}
    (hk : k.val = (s.inode p).nblocks) (past : Mem)
    (hb : (storeExtended s p inum name k (extensionBlock inum st k) past).Bounded) :
    Stored s p (dirSlots s.file (s.inode p) ++ some (name.bytes, inum) :: List.replicate 127 none) 1
      (storeExtended s p inum name k (extensionBlock inum st k) past) := by
  have hshape := (h.node p ha).dir hdir
  have hnew : ∀ e, (extensionBlock inum st k).SlotOK e := Directory.newDirBlock_false_slotOK
  have hinode := extendDir_inode (s := s) (p := p) k (extensionBlock inum st k) past
  obtain ⟨hwf, htree⟩ := h.extendDir_wf (d := extensionBlock inum st k) ha hdir hk hnew
    (show (extendDir s p k _ past).Bounded from hb)
  have hused : ((s.inode p).extended k s.nextBlock).dpUsed k = 1 := by
    rw [extended_dpUsed, Function.update_self]
  obtain ⟨hwf', htree'⟩ := hwf.putBlock_wf (p := p) (k := k)
    (d := (extensionBlock inum st k).setEntry 0 inum name) ha (by rw [hinode, extended_type, hdir])
    (by rw [hinode, hused]) (Directory.SlotOK.setEntry hnew hi)
  have hnot : k ∉ firstBlocks (s.inode p).nblocks := fun hc => by
    have := mem_firstBlocks.mp hc
    omega
  have hslots : slotsWith (extendDir s p k (extensionBlock inum st k) past).file
      ((s.inode p).extended k s.nextBlock)
      (firstBlocks ((s.inode p).extended k s.nextBlock).nblocks) k
      ((extensionBlock inum st k).setEntry 0 inum name) =
      dirSlots s.file (s.inode p) ++ some (name.bytes, inum) :: List.replicate 127 none := by
    rw [hshape.extended_nblocks hk, ← hk, firstBlocks_succ, slotsWith, List.flatMap_append, hk,
      List.flatMap_singleton, if_pos rfl, extensionBlock,
      Directory.newDirBlock_setEntry_slots hi.ne_neg_one, dirSlots]
    refine congrArg (· ++ _) (List.flatMap_congr ?_)
    intro j hj
    have hjk : ¬ j = k := fun hc => hnot (hc ▸ hj)
    rw [if_neg hjk, h.extendDir_dirAt ha fun _ => (hshape.used_iff j).mpr (mem_firstBlocks.mp hj),
      if_neg hjk]
  rw [hinode, hslots, htree, Function.update_idem] at htree'
  refine ⟨hwf', htree', rfl, toInt_succ h.fits_next, ?_⟩
  refine ⟨extendCalls s p k (extensionBlock inum st k) past ++
    [⟨blk s.nextBlock * 4096, 4096, ((extensionBlock inum st k).setEntry 0 inum name).encode⟩], ?_, ?_⟩
  · have hptr : ((s.inode p).extended k s.nextBlock).dpointers k = s.nextBlock := by
      rw [extended_dpointers, Function.update_self]
    rw [storeExtended, putBlock, hinode, hptr, File.pwrites_append]
    rfl
  · intro w hw
    rcases List.mem_append.mp hw with hw | hw
    · exact h.extendCalls_ok ha w hw
    · have hpast : PastLog s w := by
        have hnb := blk_eq h.fits_next.1
        rw [List.mem_singleton.mp hw]
        exact ⟨_, rfl, Nat.le_refl _, by omega⟩
      exact ⟨hpast.writeOK p, h.inLog_past hpast⟩

end Store

/-! ## The type is looked at -/

section Tail

variable {v : Server} {p type inum : Int32} {st : Stack}

theorem creatNode_bad (hd : type ≠ mfsDirectory) (hf : type ≠ mfsRegularFile) :
    creatNode p type inum st v = (-1, v) := by
  simp [creatNode, hd, hf]

theorem creatNode_file (h : Fits v.nextBlock) :
    creatNode p mfsRegularFile inum st v = (0, updateCR (allocFile v inum) inum) := by
  have hne : ¬ mfsRegularFile = mfsDirectory := by decide
  simp only [creatNode, if_neg hne, ne_eq, not_true_eq_false, and_false, if_false]
  rw [write_block h]
  rfl

theorem creatNode_dir (h : Fits v.nextBlock) (h' : Fits (v.nextBlock + 1)) :
    creatNode p mfsDirectory inum st v =
      (0, updateCR (allocDir v inum (newDirBlock true inum p st.firstBlock)) inum) := by
  simp only [creatNode, if_true, ne_eq, not_true_eq_false, false_and, if_false, buildDirBlock]
  rw [write_block h, write_block h']
  rfl

/-- A bound on the log after `creat_server` bounds it before the new inode is allocated. -/
theorem bounded_of_creatNode (h0 : 0 ≤ v.nextBlock.toInt) (h1 : v.nextBlock.toInt ≤ 2 ^ 19)
    (hb : (creatNode p type inum st v).2.Bounded) :
    v.Bounded ∧ (type = mfsDirectory → Fits (v.nextBlock + 1)) := by
  have hone := toInt_succ_of_lt h0 (by omega)
  by_cases hd : type = mfsDirectory
  · subst hd
    have hb' : (v.nextBlock + 1 + 1).toInt * 4096 < 2 ^ 31 := hb
    rw [toInt_succ_of_lt (by omega) (by omega), hone] at hb'
    have hv : v.nextBlock.toInt * 4096 < 2 ^ 31 := by omega
    exact ⟨hv, fun _ => ⟨by omega, by omega⟩⟩
  · refine ⟨?_, fun hc => absurd hc hd⟩
    by_cases hf : type = mfsRegularFile
    · subst hf
      have hb' : (v.nextBlock + 1).toInt * 4096 < 2 ^ 31 := hb
      have hv : v.nextBlock.toInt * 4096 < 2 ^ 31 := by omega
      exact hv
    · rw [creatNode_bad hd hf] at hb
      exact hb

end Tail

/-! ## Refinement -/

section Refine

variable {s : Server} {p type inum : Int32} {name : Name} {st : Stack}

/-- The last part of a successful creation: a new inode past the end of the log, then `update_CR`. -/
theorem Stored.commit {v w : Server} {slots : List DirSlot} {nd : Node} {c b : Nat}
    {ws : List WriteCall} (hst : Stored s p slots c v) (hwf : WF s) (hw : WF w)
    (htree : w.tree = Function.update v.tree inum (some nd)) (hfile : w.file = v.file.pwrites ws)
    (hpast : ∀ x ∈ ws, PastLog v x) (himap : ∀ j, j ≠ inum → w.imap j = v.imap j)
    (hnext : w.nextBlock.toInt = v.nextBlock.toInt + b) (hi : InRange inum)
    (hexec : s.tree.creat p type name =
      (0, Function.update (Function.update s.tree p (some (.dir slots))) inum (some nd)))
    (hcost : s.tree.cost (.creat p type name) = c + b)
    (htype : type = mfsDirectory ∨ type = mfsRegularFile) :
    Refines s (.creat p type name) 0 (updateCR w inum) := by
  obtain ⟨hwf', htree'⟩ := hw.checkpoint hi
  obtain ⟨vs, hvs, hok⟩ := hst.writes
  have hv := hst.next_eq
  have hlog : ∀ x ∈ vs ++ ws, WriteOK s p x ∧ InLog x := by
    intro x hx
    rcases List.mem_append.mp hx with hx | hx
    · exact hok x hx
    · have hx' : PastLog s x := (hpast x hx).mono (by omega)
      exact ⟨hx'.writeOK p, hwf.inLog_past hx'⟩
  have hw' : w.file = s.file.pwrites (vs ++ ws) := by rw [hfile, hvs, File.pwrites_append]
  constructor
  case wf => exact hwf'
  case ret_eq => rw [Fs.exec, hexec]
  case tree_eq => rw [htree', htree, hst.tree_eq, Fs.exec, hexec]
  case next_eq =>
    rw [hcost, updateCR_nextBlock]
    omega
  case writes =>
    refine ⟨(vs ++ ws) ++ crWrites w inum, 16388, ?_, ?_⟩
    · rw [File.pwrites_append, ← hw', updateCR_eq hi]
      rfl
    · intro x hx
      rcases List.mem_append.mp hx with hx | hx
      · exact (hlog x hx).1
      · exact Or.inl (crWrites_in_region hi x hx)
  case sync =>
    intro hsync _
    refine hsync.checkpoint (u := w) (l := vs ++ ws) (p := w.file.pos) ?_
      (fun x hx => (hlog x hx).2) hi ?_
    · rw [← hw']
      exact (File.seekTo_self _).symm
    · intro j hj
      rw [himap j hj, hst.imap_eq]
  case stale =>
    rintro _ ⟨_, _, _, _, _, _, hd, hf⟩
    exact absurd htype (not_or.mpr ⟨hd, hf⟩)

/-- An entry that was stored for a type the server does not know stays in the directory. -/
theorem Stored.leave {v : Server} {slots slots' : List DirSlot} {c : Nat}
    (hst : Stored s p slots' c v) (hp : s.tree p = some (.dir slots))
    (hmiss : lookupSlots slots name = -1) (hfree : s.tree.freeInum ≠ -1)
    (hd : type ≠ mfsDirectory) (hf : type ≠ mfsRegularFile) (hlen : none ∉ slots → slots.length < 14 * 128)
    (hc : c = if none ∈ slots then 0 else 1)
    (hexec : s.tree.creat p type name = (-1, Function.update s.tree p (some (.dir slots'))))
    (hcost : s.tree.cost (.creat p type name) = c) : Refines s (.creat p type name) (-1) v := by
  obtain ⟨vs, hvs, hok⟩ := hst.writes
  have hfile : v.file = (s.file.pwrites vs).seekTo v.file.pos := by
    rw [← hvs]
    exact (File.seekTo_self _).symm
  constructor
  case wf => exact hst.wf
  case ret_eq => rw [Fs.exec, hexec]
  case tree_eq => rw [hst.tree_eq, Fs.exec, hexec]
  case next_eq => rw [hcost, hst.next_eq]
  case writes => exact ⟨vs, _, hfile, fun x hx => (hok x hx).1⟩
  case sync =>
    intro hsync hkeep
    have hroom : none ∈ slots := by
      by_contra hfull
      exact hkeep ⟨slots, hp, hmiss, hfree, hfull, hlen hfull, hd, hf⟩
    have hnext : v.nextBlock = s.nextBlock := by
      rw [← Int32.toInt_inj, hst.next_eq, hc, if_pos hroom]
      simp
    exact hsync.log hfile (fun x hx => (hok x hx).2) (fun j _ => by rw [hst.imap_eq]) hnext
  case stale =>
    rintro hsync ⟨slots₁, hp₁, _, _, hfull, _⟩ hsync'
    obtain rfl : slots = slots₁ := by
      rw [hp] at hp₁
      simpa using hp₁
    -- the region still holds the old `next_block`, which is one less
    have hold : getInt v.file.byte 16384 = s.nextBlock := by
      rw [← hsync.next, hfile]
      exact getInt_congr fun k hk => byte_of_inLog (fun x hx => (hok x hx).2) (by simp only [crSize]; omega)
    have hnext := hst.next_eq
    rw [hc, if_neg hfull, ← hsync'.next, hold] at hnext
    omega

/-- What follows once the entry is stored, for every type. -/
theorem Stored.refines {v : Server} {slots slots' : List DirSlot} {c : Nat}
    (hst : Stored s p slots' c v) (hwf : WF s) (hp : s.tree p = some (.dir slots))
    (hpr : InRange p) (hmiss : lookupSlots slots name = -1) (hfree : s.tree.freeInum = inum)
    (hi : InRange inum) (hadd : addEntry slots name inum = some slots')
    (hlen : none ∉ slots → slots.length < 14 * 128) (hc : c = if none ∈ slots then 0 else 1)
    (hb : (creatNode p type inum st v).2.Bounded) :
    Refines s (.creat p type name) (creatNode p type inum st v).1 (creatNode p type inum st v).2 := by
  have hfree' : ¬ inum = -1 := hi.ne_neg_one
  have hfits : Fits v.nextBlock := hst.wf.fits_next
  have hv2 := hfits.2
  have hexec : s.tree.creat p type name =
      if type ≠ mfsDirectory ∧ type ≠ mfsRegularFile then
        (-1, Function.update s.tree p (some (.dir slots')))
      else (0, Function.update (Function.update s.tree p (some (.dir slots'))) inum
        (some (Fs.newNode type inum p))) := by
    simp only [Fs.creat, hp, hmiss, hfree, hadd, ne_eq, not_true_eq_false, if_false, hfree']
  have hcost : s.tree.cost (.creat p type name) =
      c + (if type = mfsDirectory then 2 else if type = mfsRegularFile then 1 else 0) := by
    simp only [Fs.cost, hp, hmiss, hfree, hadd, ne_eq, not_true_eq_false, hfree', Option.isNone_some,
      Bool.false_eq_true, or_self, if_false, hc]
  obtain ⟨_, hfits'⟩ := bounded_of_creatNode hfits.1 (by omega) hb
  by_cases hd : type = mfsDirectory
  · subst hd
    have hok := Directory.newDirBlock_true_slotOK (d := st.firstBlock) hi hpr
    rw [creatNode_dir hfits (hfits' rfl)] at hb ⊢
    obtain ⟨hw, htree⟩ := hst.wf.allocDir_wf hi hok hb
    rw [Directory.newDirBlock_true_slots hi.ne_neg_one hpr.ne_neg_one] at htree
    refine hst.commit hwf hw htree rfl hst.wf.allocDirCalls_past
      (fun j hj => Function.update_of_ne hj _ _) (b := 2) hst.wf.toInt_next.2 hi ?_ ?_
      (Or.inl rfl)
    · rw [hexec]
      simp [Fs.newNode]
    · rw [hcost]
      simp
  · by_cases hf : type = mfsRegularFile
    · subst hf
      rw [creatNode_file hfits] at hb ⊢
      obtain ⟨hw, htree⟩ := hst.wf.allocFile_wf hi hb
      refine hst.commit hwf hw htree rfl hst.wf.allocFileCalls_past
        (fun j hj => Function.update_of_ne hj _ _) (b := 1) hst.wf.toInt_next.1 hi ?_ ?_
        (Or.inr rfl)
      · rw [hexec]
        simp [Fs.newNode, hd]
      · rw [hcost]
        simp [hd]
    · rw [creatNode_bad hd hf]
      refine hst.leave hp hmiss (by rw [hfree]; exact hfree') hd hf hlen hc ?_ ?_
      · rw [hexec]
        simp [hd, hf]
      · rw [hcost]
        simp [hd, hf]

variable (type) in
theorem creatServer_dir {s₁ s₂ : Server} {parent : Inode} {found : Int32}
    (hfind : findInode s p st.parent = (0, parent, s₁)) (hdir : parent.type = mfsDirectory)
    (hlook : lookupServer s₁ p name st = (found, s₂)) :
    creatServer s p type name st =
      if found ≠ -1 then (0, s₂)
      else if freeInum s₂.imap = -1 then (-1, s₂)
      else creatLoop p type name (freeInum s₂.imap) st (List.finRange 14) parent st.block s₂ := by
  unfold creatServer
  simp [hfind, hdir, hlook]

theorem finRange_split (m : Nat) :
    List.finRange 14 = firstBlocks m ++ (List.finRange 14).drop m :=
  (List.take_append_drop _ _).symm

/-- Where the loop of `creat_server` stores the entry: in a block that the directory `p` has, or in
one that is added to it. -/
inductive Stores (s : Server) (p : Int32) (name : Name) (st : Stack) : Server → Prop where
  | entry {k : Fin 14} {e : Fin 128} (ha : s.Allocated p) (hdir : (s.inode p).type = mfsDirectory)
      (hfind : findSlot s.file (s.inode p) (firstBlocks (s.inode p).nblocks) = some (k, e)) :
      Stores s p name st (storeEntry s p (freeInum s.imap) name k e st.pastParent)
  | extended {k : Fin 14} (ha : s.Allocated p) (hdir : (s.inode p).type = mfsDirectory)
      (hk : k.val = (s.inode p).nblocks) :
      Stores s p name st (storeExtended s p (freeInum s.imap) name k
        (extensionBlock (freeInum s.imap) st k) st.pastParent)

/-- What the loop of `creat_server` leads to on the directory `slots`: an entry stored in `v`, after
`c` blocks were taken, and then `creatNode`. -/
structure Reaches (s : Server) (p type : Int32) (name : Name) (st : Stack) (res : Int32 × Server)
    (slots slots' : List DirSlot) (v : Server) (c : Nat) : Prop where
  parent : s.tree p = some (.dir slots)
  inRange : InRange p
  miss : lookupSlots slots name = -1
  free : InRange (freeInum s.imap)
  add : addEntry slots name (freeInum s.imap) = some slots'
  short : none ∉ slots → slots.length < 14 * 128
  taken : c = if none ∈ slots then 0 else 1
  next : v.nextBlock.toInt = s.nextBlock.toInt + c
  eq : res = creatNode p type (freeInum s.imap) st v
  stored : v.Bounded → Stored s p slots' c v
  stores : Stores s p name st v

/-- The loop on a directory. -/
theorem WF.creatLoop_cases (h : WF s) (ha : s.Allocated p) (hdir : (s.inode p).type = mfsDirectory)
    (hmiss : lookupSlots (dirSlots s.file (s.inode p)) name = -1) (hfree : freeInum s.imap ≠ -1)
    {block : Directory} {q : Nat} {res : Int32 × Server}
    (hres : creatLoop p type name (freeInum s.imap) st (List.finRange 14) (s.inode p) block
      (s.seek q) = res) :
    Declines s (.creat p type name) res ∨
      ∃ slots' v c, Reaches s p type name st res (dirSlots s.file (s.inode p)) slots' v c := by
  have hn := h.node p ha
  have hshape := hn.dir hdir
  have hp : s.tree p = some (.dir (dirSlots s.file (s.inode p))) := by
    rw [tree_of_allocated ha, nodeOf, if_pos hdir]
  have hlen := length_dirSlots s.file hshape.nblocks_le
  have hi := freeInum_spec hfree
  have hfree' := freeInum_tree s
  have hinsert := insert_flatMap_slots (f := s.file) (n := s.inode p) name hi.ne_neg_one
    _ (nodup_firstBlocks (s.inode p).nblocks)
  rw [finRange_split (s.inode p).nblocks] at hres
  rcases h.creatLoop_eq ha type (freeInum s.imap) name st (firstBlocks (s.inode p).nblocks)
    ((List.finRange 14).drop (s.inode p).nblocks)
    (fun k hk => (hshape.used_iff k).mpr (mem_firstBlocks.mp hk)) block q with
    ⟨k, e, q', hfind, hloop⟩ | ⟨hfind, block', q', hloop⟩
  · -- a free entry in a block the directory already has
    have hk := (hshape.used_iff k).mpr (mem_firstBlocks.mp (mem_of_findSlot hfind).1)
    rw [hloop, h.creatAt_eq ha hk] at hres
    obtain ⟨slots, hins, hst⟩ := h.storeEntry_stored name ha hdir hi hfind st.pastParent
    have hroom : none ∈ dirSlots s.file (s.inode p) := by
      by_contra hc
      rw [SlotTable.insert_eq_none_iff.mpr hc] at hins
      exact absurd hins (by simp)
    exact Or.inr ⟨slots, _, 0,
      { parent := hp
        inRange := h.inRange p ha
        miss := hmiss
        free := hi
        add := by rw [addEntry, hins]
        short := fun hc => absurd hroom hc
        taken := by rw [if_pos hroom]
        next := hst.next_eq
        eq := hres.symm
        stored := fun _ => hst
        stores := Stores.entry ha hdir hfind }⟩
  · rw [hloop] at hres
    have hnone : SlotTable.insert (name.bytes, freeInum s.imap) (dirSlots s.file (s.inode p)) = none := by
      rw [dirSlots, hinsert, hfind]
      rfl
    have hfull : none ∉ dirSlots s.file (s.inode p) := SlotTable.insert_eq_none_iff.mp hnone
    by_cases hlt : (s.inode p).nblocks < 14
    · -- every block is full: the directory is extended
      have hdrop : (List.finRange 14).drop (s.inode p).nblocks =
          ⟨(s.inode p).nblocks, hlt⟩ :: (List.finRange 14).drop ((s.inode p).nblocks + 1) := by
        rw [List.drop_eq_getElem_cons (by simpa using hlt)]
        simp
      have hunused : (s.inode p).dpUsed ⟨(s.inode p).nblocks, hlt⟩ = 0 := by
        refine (hn.used_bit _).resolve_right fun hc => ?_
        have := (hshape.used_iff _).mp hc
        simp at this
      have hroom : (dirSlots s.file (s.inode p)).length < 14 * 128 := by omega
      rw [hdrop, h.creatLoop_full ha hunused] at hres
      exact Or.inr ⟨_, _, 1,
        { parent := hp
          inRange := h.inRange p ha
          miss := hmiss
          free := hi
          add := by
            rw [addEntry, hnone]
            simp only [if_pos hroom]
          short := fun _ => hroom
          taken := by rw [if_neg hfull]
          next := toInt_succ h.fits_next
          eq := hres.symm
          stored := h.storeExtended_stored ha hdir hi rfl st.pastParent
          stores := Stores.extended ha hdir rfl }⟩
    · -- all 14 blocks are full
      have hdrop : (List.finRange 14).drop (s.inode p).nblocks = [] :=
        List.drop_eq_nil_of_le (by simpa using Nat.le_of_not_lt hlt)
      have hover : ¬ (dirSlots s.file (s.inode p)).length < 14 * 128 := by omega
      have hadd : addEntry (dirSlots s.file (s.inode p)) name (freeInum s.imap) = none := by
        rw [addEntry, hnone]
        simp only [if_neg hover]
      rw [hdrop, creatLoop] at hres
      refine Or.inl ⟨-1, q', hres.symm, ?_, ?_⟩
      · simp only [Fs.exec, Fs.creat, hp, hmiss, hfree', hfree, hadd, ne_eq, not_true_eq_false,
          if_false]
      · simp only [Fs.cost, hp, hmiss, hfree', hadd, Option.isNone_none, or_true, if_true]

variable (st) in
/-- Every path through `creat_server`, for a number that is out of range or allocated. -/
theorem WF.creatServer_cases (h : WF s) (ha : Request.Addressed s (.creat p type name)) :
    Declines s (.creat p type name) (creatServer s p type name st) ∨
      ∃ slots slots' v c,
        Reaches s p type name st (creatServer s p type name st) slots slots' v c := by
  by_cases halloc : s.Allocated p
  swap
  · have hout : ¬ InRange p := ha.resolve_right halloc
    have heq : creatServer s p type name st = (-1, s.seek s.file.pos) := by
      unfold creatServer
      simp [findInode_of_not_inRange hout, seek_self]
    refine Or.inl ⟨_, _, heq, ?_, ?_⟩
    · rw [Fs.exec, Fs.creat, tree_of_not_allocated halloc]
    · rw [Fs.cost, tree_of_not_allocated halloc]
  have hfind := h.findInode_eq halloc st.parent
  by_cases hdir : (s.inode p).type = mfsDirectory
  swap
  · have heq : creatServer s p type name st = (-1, s.seek (blk (s.imap p) * 4096 + 124)) := by
      unfold creatServer
      simp [hfind, hdir]
    refine Or.inl ⟨_, _, heq, ?_, ?_⟩
    · rw [Fs.exec, Fs.creat, tree_of_allocated halloc, nodeOf, if_neg hdir]
    · rw [Fs.cost, tree_of_allocated halloc, nodeOf, if_neg hdir]
  have hp : s.tree p = some (.dir (dirSlots s.file (s.inode p))) := by
    rw [tree_of_allocated halloc, nodeOf, if_pos hdir]
  obtain ⟨q, hlook⟩ := h.lookupServer_eq halloc name st (blk (s.imap p) * 4096 + 124)
  have heq := creatServer_dir type hfind hdir hlook
  have hval : s.tree.lookup p name = lookupSlots (dirSlots s.file (s.inode p)) name := by
    rw [Fs.lookup, hp]
  rw [hval, seek_imap] at heq
  by_cases hmiss : lookupSlots (dirSlots s.file (s.inode p)) name = -1
  swap
  · rw [if_pos hmiss] at heq
    refine Or.inl ⟨_, _, heq, ?_, ?_⟩
    · simp only [Fs.exec, Fs.creat, hp, ne_eq, hmiss, not_false_eq_true, if_true]
    · simp only [Fs.cost, hp, ne_eq, hmiss, not_false_eq_true, true_or, if_true]
  rw [if_neg (not_not.mpr hmiss)] at heq
  by_cases hfree : freeInum s.imap = -1
  · rw [if_pos hfree] at heq
    have hfree' : s.tree.freeInum = -1 := by rw [freeInum_tree, hfree]
    refine Or.inl ⟨_, _, heq, ?_, ?_⟩
    · simp only [Fs.exec, Fs.creat, hp, hmiss, hfree', ne_eq, not_true_eq_false, if_true, if_false]
    · simp only [Fs.cost, hp, hfree', true_or, or_true, if_true]
  · rw [if_neg hfree] at heq
    rcases h.creatLoop_cases halloc hdir hmiss hfree heq.symm with hdecl | ⟨slots', v, c, hreach⟩
    · exact Or.inl hdecl
    · exact Or.inr ⟨_, slots', v, c, hreach⟩

/-- On a request that is out of range or allocated, `creat_server` does what the abstract creation
does. -/
theorem WF.creat_refines (h : WF s) (ha : Request.Addressed s (.creat p type name))
    (hb : (creatServer s p type name st).2.Bounded) :
    Refines s (.creat p type name) (creatServer s p type name st).1
      (creatServer s p type name st).2 := by
  rcases h.creatServer_cases st ha with hdecl | ⟨slots, slots', v, c, hr⟩
  · exact hdecl.refines h
  · have hfits := h.fits_next
    obtain ⟨h0, h1⟩ := hfits
    have hnext := hr.next
    have hc : c ≤ 1 := by
      rw [hr.taken]
      split <;> omega
    rw [hr.eq] at hb ⊢
    have hv := (bounded_of_creatNode (by omega) (by omega) hb).1
    exact (hr.stored hv).refines h hr.parent hr.inRange hr.miss (freeInum_tree s) hr.free hr.add
      hr.short hr.taken hb

theorem creatNode_next {v : Server} {inum : Int32} (h0 : 0 ≤ v.nextBlock.toInt)
    (h1 : v.nextBlock.toInt ≤ 2 ^ 19) :
    (creatNode p type inum st v).2.nextBlock.toInt = v.nextBlock.toInt +
      ((if type = mfsDirectory then 2 else if type = mfsRegularFile then 1 else 0 : Nat) : Int) := by
  have hone := toInt_succ_of_lt h0 (by omega)
  have htwo := toInt_succ_of_lt (x := v.nextBlock + 1) (by omega) (by omega)
  by_cases hd : type = mfsDirectory
  · subst hd
    have heq : (creatNode p mfsDirectory inum st v).2.nextBlock = v.nextBlock + 1 + 1 := rfl
    rw [heq, htwo, hone, if_pos rfl]
    omega
  · by_cases hf : type = mfsRegularFile
    · subst hf
      have heq : (creatNode p mfsRegularFile inum st v).2.nextBlock = v.nextBlock + 1 := rfl
      rw [heq, hone, if_neg hd, if_pos rfl]
      rfl
    · rw [creatNode_bad hd hf, if_neg hd, if_neg hf]
      simp

/-- `creat_server` takes the blocks that the abstract cost says, whether or not they fit. -/
theorem WF.creat_next (h : WF s) (ha : Request.Addressed s (.creat p type name)) :
    (creatServer s p type name st).2.nextBlock.toInt =
      s.nextBlock.toInt + s.tree.cost (.creat p type name) := by
  rcases h.creatServer_cases st ha with ⟨ret, q, heq, _, hcost⟩ | ⟨slots, slots', v, c, hr⟩
  · rw [heq, hcost, seek_nextBlock]
    simp
  · have hfits := h.fits_next
    obtain ⟨h0, h1⟩ := hfits
    have hnext := hr.next
    have hfree : ¬ freeInum s.imap = -1 := hr.free.ne_neg_one
    have hc : c ≤ 1 := by
      rw [hr.taken]
      split <;> omega
    have hcost : s.tree.cost (.creat p type name) =
        c + (if type = mfsDirectory then 2 else if type = mfsRegularFile then 1 else 0) := by
      simp only [Fs.cost, hr.parent, hr.miss, freeInum_tree, hr.add, ne_eq, not_true_eq_false, hfree,
        Option.isNone_some, Bool.false_eq_true, or_self, if_false, hr.taken]
    rw [hr.eq, creatNode_next (by omega) (by omega), hcost, hnext]
    omega

end Refine

end Linux
end LfsXv6
