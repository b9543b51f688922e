import LfsXv6.Linux.FileTree
import LfsXv6.Linux.Image

/-!
# WellFormed — the invariant of the image

`WF s` says that every allocated inode is described by an inode block of the right shape, that the
blocks of an inode are its own, and that everything lies below the end of the log.  All paths of
`lfs.c` change one inode at a time; `WF.update` turns what a path does to that inode into the
invariant of the whole image, so the case analysis over the other inodes is made once.

The abstraction `Server.tree` reads the file system of `FileTree` off the image.
-/

namespace LfsXv6
namespace Linux

open Lib

/-! ## Ownership -/

/-- The inode stored at block `imap[i]`. -/
def Server.inode (s : Server) (i : Int32) : Inode := inodeAt s.file (s.imap i)

/-- Block `x` is the inode block of `i`, or a used direct block of it. -/
def Server.Owns (s : Server) (i x : Int32) : Prop :=
  s.Allocated i ∧ (x = s.imap i ∨ ∃ k, (s.inode i).dpUsed k = 1 ∧ x = (s.inode i).dpointers k)

/-! ## Shapes -/

namespace Directory

/-- Entry `e` as an abstract slot. -/
def slot (d : Directory) (e : Fin 128) : DirSlot :=
  if d.inums e = -1 then none else some (cstr (d.names e), d.inums e)

def slots (d : Directory) : List DirSlot := (List.finRange 128).map d.slot

/-- A free entry is named `"DNE"`; a live one has an inode number and a terminated name. -/
def SlotOK (d : Directory) (e : Fin 128) : Prop :=
  (d.inums e = -1 ∧ cstr (d.names e) = marker) ∨
    (InRange (d.inums e) ∧ (cstr (d.names e)).length ≤ 27)

end Directory

/-- Number of directory blocks, from the size field. -/
def Inode.nblocks (n : Inode) : Nat := n.size.toNatClampNeg / 4096

/-- A directory inode stored at block `x`: its pointers are a prefix, its first block lies just in
front of it, and every entry is well formed. -/
structure DirShape (f : File) (x : Int32) (n : Inode) : Prop where
  size_eq : n.size = Int32.ofNat (4096 * n.nblocks)
  nblocks_pos : 1 ≤ n.nblocks
  nblocks_le : n.nblocks ≤ 14
  used_iff : ∀ k : Fin 14, n.dpUsed k = 1 ↔ k.val < n.nblocks
  adjacent : x = n.dpointers 0 + 1
  slot_ok : ∀ k, n.dpUsed k = 1 → ∀ e, (dirAt f (n.dpointers k)).SlotOK e

/-- A regular file ends with the last block that was written. -/
structure FileShape (n : Inode) : Prop where
  used_le : ∀ k : Fin 14, n.dpUsed k = 1 → 4096 * ((k : Nat) + 1 : Int) ≤ n.size.toInt
  size_eq : n.size = 0 ∨ ∃ k : Fin 14, n.dpUsed k = 1 ∧ n.size.toInt = 4096 * ((k : Nat) + 1 : Int)

/-- What holds of one allocated inode. -/
structure NodeWF (s : Server) (i : Int32) : Prop where
  inum_eq : (s.inode i).inum = i
  type_ok : (s.inode i).type = mfsDirectory ∨ (s.inode i).type = mfsRegularFile
  used_bit : ∀ k, (s.inode i).dpUsed k = 0 ∨ (s.inode i).dpUsed k = 1
  used_iff : ∀ k, (s.inode i).dpUsed k = 1 ↔ (s.inode i).dpointers k ≠ -1
  owned : ∀ x, s.Owns i x → 6 ≤ x.toInt ∧ x.toInt < s.nextBlock.toInt
  inode_end : blk (s.imap i) * 4096 + 124 ≤ s.file.size
  block_end : ∀ k, (s.inode i).dpUsed k = 1 →
    blk ((s.inode i).dpointers k) * 4096 + 4096 ≤ s.file.size
  inj : ∀ k k', (s.inode i).dpUsed k = 1 → (s.inode i).dpUsed k' = 1 →
    (s.inode i).dpointers k = (s.inode i).dpointers k' → k = k'
  apart : ∀ k, (s.inode i).dpUsed k = 1 → (s.inode i).dpointers k ≠ s.imap i
  dir : (s.inode i).type = mfsDirectory → DirShape s.file (s.imap i) (s.inode i)
  file : (s.inode i).type = mfsRegularFile → FileShape (s.inode i)

/-- The invariant of the image. -/
structure WF (s : Server) : Prop where
  inRange : ∀ i, s.Allocated i → InRange i
  node : ∀ i, s.Allocated i → NodeWF s i
  disjoint : ∀ i j x, s.Owns i x → s.Owns j x → i = j
  next : 6 ≤ s.nextBlock.toInt
  bounded : s.Bounded

/-! ## Abstraction -/

/-- The first `m` direct pointers. -/
def firstBlocks (m : Nat) : List (Fin 14) := (List.finRange 14).take m

theorem mem_firstBlocks {m : Nat} {k : Fin 14} : k ∈ firstBlocks m ↔ k.val < m := by
  rw [firstBlocks, List.mem_take_iff_getElem]
  constructor
  · rintro ⟨q, hq, rfl⟩
    simp only [List.length_finRange] at hq
    simp
    omega
  · intro hk
    exact ⟨k, by simp; omega, by simp⟩

theorem firstBlocks_succ (k : Fin 14) : firstBlocks (k + 1) = firstBlocks k ++ [k] := by
  simp [firstBlocks, List.take_add_one]

theorem nodup_firstBlocks (m : Nat) : (firstBlocks m).Nodup :=
  (List.take_sublist m _).nodup (List.nodup_finRange 14)

/-- The slots of a directory, block after block. -/
def dirSlots (f : File) (n : Inode) : List DirSlot :=
  (firstBlocks n.nblocks).flatMap fun k => (dirAt f (n.dpointers k)).slots

/-- The blocks of a file that were written. -/
def fileBlocks (f : File) (n : Inode) : Fin 14 → Option Block :=
  fun k => if n.dpUsed k = 1 then some (dataAt f (n.dpointers k)) else none

/-- An inode as a node of the abstract file system. -/
def nodeOf (f : File) (n : Inode) : Node :=
  if n.type = mfsDirectory then .dir (dirSlots f n) else .file n.size (fileBlocks f n)

/-- The file system that an image stores. -/
def Server.tree (s : Server) : Fs :=
  fun i => if s.imap i = -1 then none else some (nodeOf s.file (s.inode i))

section Tree

variable {s : Server} {i : Int32}

theorem tree_of_allocated (h : s.Allocated i) : s.tree i = some (nodeOf s.file (s.inode i)) :=
  if_neg h

theorem tree_of_not_allocated (h : ¬ s.Allocated i) : s.tree i = none :=
  if_pos (not_not.mp h)

theorem tree_eq_none_iff : s.tree i = none ↔ s.imap i = -1 := by
  by_cases h : s.imap i = -1 <;> simp [Server.tree, h]

end Tree

/-! ## Consequences of the invariant -/

namespace NodeWF

variable {s u : Server} {i : Int32}

theorem owns_inode (ha : s.Allocated i) : s.Owns i (s.imap i) := ⟨ha, Or.inl rfl⟩

theorem owns_block (ha : s.Allocated i) {k : Fin 14} (hk : (s.inode i).dpUsed k = 1) :
    s.Owns i ((s.inode i).dpointers k) := ⟨ha, Or.inr ⟨k, hk, rfl⟩⟩

theorem fits (h : NodeWF s i) (hb : s.Bounded) {x : Int32} (hx : s.Owns i x) : Fits x := by
  have hown := h.owned x hx
  simp only [Server.Bounded] at hb
  exact ⟨by omega, by omega⟩

/-- An inode keeps its well-formedness while its fields stay as they are and it keeps its shape. -/
theorem of_inode_eq (h : NodeWF s i) (ha : s.Allocated i) (himap : u.imap i = s.imap i)
    (hnext : s.nextBlock.toInt ≤ u.nextBlock.toInt) (hsize : s.file.size ≤ u.file.size)
    (hinode : u.inode i = s.inode i)
    (hdir : (s.inode i).type = mfsDirectory → DirShape u.file (s.imap i) (s.inode i)) :
    NodeWF u i := by
  have howns : ∀ x, u.Owns i x → s.Owns i x := by
    intro x hx
    rw [Server.Owns, hinode, himap] at hx
    exact ⟨ha, hx.2⟩
  constructor
  case inum_eq => rw [hinode]; exact h.inum_eq
  case type_ok => rw [hinode]; exact h.type_ok
  case used_bit => rw [hinode]; exact h.used_bit
  case used_iff => rw [hinode]; exact h.used_iff
  case owned =>
    intro x hx
    have := h.owned x (howns x hx)
    omega
  case inode_end =>
    rw [himap]
    exact Nat.le_trans h.inode_end hsize
  case block_end =>
    rw [hinode]
    exact fun k hk => Nat.le_trans (h.block_end k hk) hsize
  case inj => rw [hinode]; exact h.inj
  case apart => rw [hinode, himap]; exact h.apart
  case file => rw [hinode]; exact h.file
  case dir => rw [hinode, himap]; exact hdir

/-- It also keeps its contents while its direct blocks keep their bytes. -/
theorem frame (h : NodeWF s i) (ha : s.Allocated i) (himap : u.imap i = s.imap i)
    (hnext : s.nextBlock.toInt ≤ u.nextBlock.toInt) (hsize : s.file.size ≤ u.file.size)
    (hinode : u.inode i = s.inode i)
    (hsame : ∀ k, (s.inode i).dpUsed k = 1 → SameBlock u.file s.file ((s.inode i).dpointers k)) :
    NodeWF u i ∧ nodeOf u.file (u.inode i) = nodeOf s.file (s.inode i) := by
  refine ⟨h.of_inode_eq ha himap hnext hsize hinode ?_, ?_⟩
  · intro htype
    have hshape := h.dir htype
    refine { hshape with slot_ok := ?_ }
    intro k hk e
    rw [(hsame k hk).dirAt]
    exact hshape.slot_ok k hk e
  · rw [hinode]
    by_cases htype : (s.inode i).type = mfsDirectory
    · have hshape := h.dir htype
      simp only [nodeOf, htype, if_true, dirSlots]
      congr 1
      refine List.flatMap_congr ?_
      intro k hk
      rw [(hsame k ((hshape.used_iff k).mpr (mem_firstBlocks.mp hk))).dirAt]
    · simp only [nodeOf, htype, if_false]
      congr 1
      funext k
      by_cases hk : (s.inode i).dpUsed k = 1
      · simp [fileBlocks, hk, (hsame k hk).dataAt]
      · simp [fileBlocks, hk]

/-- The same for an inode all of whose blocks keep their bytes. -/
theorem frame_same (h : NodeWF s i) (ha : s.Allocated i) (himap : u.imap i = s.imap i)
    (hnext : s.nextBlock.toInt ≤ u.nextBlock.toInt) (hsize : s.file.size ≤ u.file.size)
    (hsame : ∀ x, s.Owns i x → SameBlock u.file s.file x) :
    NodeWF u i ∧ u.inode i = s.inode i ∧ nodeOf u.file (u.inode i) = nodeOf s.file (s.inode i) := by
  have hinode : u.inode i = s.inode i := by
    rw [Server.inode, himap]
    exact (hsame _ (owns_inode ha)).inodeAt
  obtain ⟨hwf, hnode⟩ := h.frame ha himap hnext hsize hinode fun k hk => hsame _ (owns_block ha hk)
  exact ⟨hwf, hinode, hnode⟩

/-- The block numbers of an inode that got a direct pointer to the end of the log. -/
theorem owns_link {k : Fin 14} {x : Int32} (ha : s.Allocated i)
    (himap : u.imap i = s.imap i)
    (hptr : (u.inode i).dpointers = Function.update (s.inode i).dpointers k s.nextBlock)
    (hused : (u.inode i).dpUsed = Function.update (s.inode i).dpUsed k 1) (hx : u.Owns i x) :
    s.Owns i x ∨ x = s.nextBlock := by
  obtain ⟨_, rfl | ⟨j, hj, rfl⟩⟩ := hx
  · exact Or.inl (himap ▸ owns_inode ha)
  · rw [hused] at hj
    rw [hptr]
    by_cases hjk : j = k
    · rw [hjk, Function.update_self]
      exact Or.inr rfl
    · rw [Function.update_of_ne hjk] at hj ⊢
      exact Or.inl (owns_block ha hj)

/-- **Link rule.**  Setting direct pointer `k` to the block at the end of the log keeps an inode well
formed, whatever `k` was before, once its shape is re-established. -/
theorem link {k : Fin 14} (h : NodeWF s i) (ha : s.Allocated i)
    (hnb : 6 ≤ s.nextBlock.toInt) (himap : u.imap i = s.imap i)
    (hnext : s.nextBlock.toInt + 1 ≤ u.nextBlock.toInt)
    (hinum : (u.inode i).inum = (s.inode i).inum) (htype : (u.inode i).type = (s.inode i).type)
    (hptr : (u.inode i).dpointers = Function.update (s.inode i).dpointers k s.nextBlock)
    (hused : (u.inode i).dpUsed = Function.update (s.inode i).dpUsed k 1)
    (hsize : s.file.size ≤ u.file.size) (hend : blk s.nextBlock * 4096 + 4096 ≤ u.file.size)
    (hdir : (u.inode i).type = mfsDirectory → DirShape u.file (u.imap i) (u.inode i))
    (hfile : (u.inode i).type = mfsRegularFile → FileShape (u.inode i)) : NodeWF u i := by
  -- a block that was already owned is not the new one
  have hfresh : ∀ x, s.Owns i x → x ≠ s.nextBlock := by
    intro x hx hc
    have := h.owned x hx
    rw [hc] at this
    omega
  have hnew : s.nextBlock ≠ -1 := by
    intro heq
    rw [heq] at hnb
    exact absurd hnb (by decide)
  have hold : ∀ j, j ≠ k → (u.inode i).dpUsed j = 1 →
      (s.inode i).dpUsed j = 1 ∧ (u.inode i).dpointers j = (s.inode i).dpointers j := by
    intro j hjk hj
    rw [hused, Function.update_of_ne hjk] at hj
    exact ⟨hj, by rw [hptr, Function.update_of_ne hjk]⟩
  have hself : (u.inode i).dpointers k = s.nextBlock := by rw [hptr, Function.update_self]
  constructor
  case inum_eq => rw [hinum]; exact h.inum_eq
  case type_ok => rw [htype]; exact h.type_ok
  case used_bit =>
    intro j
    rw [hused]
    by_cases hjk : j = k
    · simp [hjk]
    · simpa [hjk] using h.used_bit j
  case used_iff =>
    intro j
    rw [hused, hptr]
    by_cases hjk : j = k
    · simp [hjk, hnew]
    · simpa [hjk] using h.used_iff j
  case owned =>
    intro x hx
    rcases owns_link ha himap hptr hused hx with hx' | rfl
    · have := h.owned x hx'
      omega
    · omega
  case inode_end =>
    rw [himap]
    exact Nat.le_trans h.inode_end hsize
  case block_end =>
    intro j hj
    by_cases hjk : j = k
    · rw [hjk, hself]
      exact hend
    · rw [(hold j hjk hj).2]
      exact Nat.le_trans (h.block_end j (hold j hjk hj).1) hsize
  case inj =>
    intro j j' hj hj' heq
    by_cases hjk : j = k <;> by_cases hjk' : j' = k
    · rw [hjk, hjk']
    · obtain ⟨hu, hp⟩ := hold j' hjk' hj'
      rw [hjk, hself, hp] at heq
      exact absurd heq.symm (hfresh _ (owns_block ha hu))
    · obtain ⟨hu, hp⟩ := hold j hjk hj
      rw [hjk', hself, hp] at heq
      exact absurd heq (hfresh _ (owns_block ha hu))
    · obtain ⟨hu, hp⟩ := hold j hjk hj
      obtain ⟨hu', hp'⟩ := hold j' hjk' hj'
      rw [hp, hp'] at heq
      exact h.inj j j' hu hu' heq
  case apart =>
    intro j hj
    rw [himap]
    by_cases hjk : j = k
    · rw [hjk, hself]
      exact Ne.symm (hfresh _ (owns_inode ha))
    · rw [(hold j hjk hj).2]
      exact h.apart j (hold j hjk hj).1
  case dir => exact hdir
  case file => exact hfile

end NodeWF

/-! ## Changing one inode -/

/-- A write call that a request on `t` may issue: inside the checkpoint region, or inside one block
that `t` owns or that lies past the end of the log. -/
def WriteOK (s : Server) (t : Int32) (w : WriteCall) : Prop :=
  w.off + w.len ≤ crSize * 4096 ∨
    ∃ b : Nat, w.off = b * 4096 ∧ w.len ≤ 4096 ∧
      ((∃ x, s.Owns t x ∧ b = blk x) ∨ s.nextBlock.toInt ≤ b)

namespace WF

variable {s u : Server} {t : Int32} {l : List WriteCall} {p : Nat}

/-- Such write calls leave the blocks of every other inode alone. -/
theorem sameBlock_of_writeOK (hwf : WF s) (hws : ∀ w ∈ l, WriteOK s t w) {i x : Int32}
    (hi : i ≠ t) (hx : s.Owns i x) : SameBlock (s.file.pwrites l) s.file x := by
  have hrange := (hwf.node i hx.1).owned x hx
  have hblk := blk_eq (x := x) (by omega)
  intro o ho
  refine File.pwrites_byte_of_forall ?_
  intro w hw
  rcases hws w hw with hcr | ⟨b, hoff, hlen, hb⟩
  · simp only [crSize] at hcr
    omega
  · have hne : b ≠ blk x := by
      rintro rfl
      rcases hb with ⟨y, hy, hxy⟩ | hnext
      · have hyrange := (hwf.node t hy.1).owned y hy
        have hxy' : x = y := blk_inj (by omega) (by omega) hxy
        exact hi (hwf.disjoint i t x hx (hxy' ▸ hy))
      · omega
    omega

/-- **Update rule.**  A step that only changes the inode `t`, writes only where `t` may, and leaves
`t` well formed keeps the invariant, and every other inode of the file system. -/
theorem update (hwf : WF s) (hfile : u.file = (s.file.pwrites l).seekTo p)
    (hws : ∀ w ∈ l, WriteOK s t w) (himap : ∀ i, i ≠ t → u.imap i = s.imap i)
    (hnext : s.nextBlock.toInt ≤ u.nextBlock.toInt) (hb : u.Bounded)
    (ht : u.Allocated t → InRange t ∧ NodeWF u t)
    (hown : ∀ x, u.Owns t x → s.Owns t x ∨ s.nextBlock.toInt ≤ x.toInt) :
    WF u ∧ u.tree = Function.update s.tree t (u.tree t) := by
  have halloc : ∀ i, i ≠ t → (u.Allocated i ↔ s.Allocated i) := by
    intro i hi
    rw [Server.Allocated, Server.Allocated, himap i hi]
  have hframe : ∀ i, i ≠ t → s.Allocated i → NodeWF u i ∧ u.inode i = s.inode i ∧
      nodeOf u.file (u.inode i) = nodeOf s.file (s.inode i) := by
    intro i hi ha
    refine (hwf.node i ha).frame_same ha (himap i hi) hnext ?_ ?_
    · rw [hfile]
      exact File.size_le_pwrites
    · intro x hx
      rw [hfile]
      exact hwf.sameBlock_of_writeOK hws hi hx
  have howns : ∀ i x, i ≠ t → u.Owns i x → s.Owns i x := by
    intro i x hi hx
    have ha := (halloc i hi).mp hx.1
    rw [Server.Owns, (hframe i hi ha).2.1, himap i hi] at hx
    exact ⟨ha, hx.2⟩
  -- a block of `t` never meets a block of another inode: it was already its own, or it is new
  have hcross : ∀ i x, i ≠ t → u.Owns i x → ¬ u.Owns t x := by
    intro i x hi hx htx
    have hix := howns i x hi hx
    rcases hown x htx with hold | hnew
    · exact hi (hwf.disjoint i t x hix hold)
    · have := (hwf.node i hix.1).owned x hix
      omega
  refine ⟨⟨?_, ?_, ?_, ?_, hb⟩, ?_⟩
  · intro i ha
    by_cases hi : i = t
    · exact hi ▸ (ht (hi ▸ ha)).1
    · exact hwf.inRange i ((halloc i hi).mp ha)
  · intro i ha
    by_cases hi : i = t
    · exact hi ▸ (ht (hi ▸ ha)).2
    · exact (hframe i hi ((halloc i hi).mp ha)).1
  · intro i j x hx hy
    by_cases hi : i = t
    · by_cases hj : j = t
      · rw [hi, hj]
      · exact absurd (hi ▸ hx) (hcross j x hj hy)
    · by_cases hj : j = t
      · exact absurd (hj ▸ hy) (hcross i x hi hx)
      · exact hwf.disjoint i j x (howns i x hi hx) (howns j x hj hy)
  · exact Int.le_trans hwf.next hnext
  · funext i
    by_cases hi : i = t
    · rw [hi, Function.update_self]
    · rw [Function.update_of_ne hi]
      by_cases ha : s.Allocated i
      · rw [tree_of_allocated ha, tree_of_allocated ((halloc i hi).mpr ha), (hframe i hi ha).2.2]
      · rw [tree_of_not_allocated ha, tree_of_not_allocated (fun h => ha ((halloc i hi).mp h))]

end WF

end Linux
end LfsXv6
