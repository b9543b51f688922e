import LfsXv6.Linux.Search

/-!
# Checkpoint — `update_CR` and the region it keeps

The first six blocks of the image are the checkpoint region: `imap`, then `next_block`.  `InSync`
says that the region agrees with the globals of the running server.
-/

namespace LfsXv6
namespace Linux

open Lib

/-- The write calls of `update_CR(inum)`. -/
def crWrites (s : Server) (inum : Int32) : List WriteCall :=
  [{ off := 4 * blk inum, len := 4, data := intMem (s.imap inum) },
    { off := 16384, len := 4, data := intMem s.nextBlock }]

theorem InRange.blk_lt {i : Int32} (h : InRange i) : 0 ≤ i.toInt ∧ blk i < 4096 := by
  obtain ⟨h0, h1⟩ := h
  rw [Int32.le_iff_toInt_le] at h0
  rw [Int32.lt_iff_toInt_lt] at h1
  have hlit : (4096 : Int32).toInt = 4096 := by decide
  have hzero : (0 : Int32).toInt = 0 := by decide
  have hblk := blk_eq (x := i) (by omega)
  exact ⟨by omega, by omega⟩

theorem InRange.ne_neg_one {i : Int32} (h : InRange i) : i ≠ -1 := by
  rintro rfl
  exact absurd h (by decide)

theorem updateCR_eq {s : Server} {inum : Int32} (h : InRange inum) :
    updateCR s inum = { s with file := s.file.pwrites (crWrites s inum) } := by
  obtain ⟨h0, _⟩ := h.blk_lt
  have hoff : (inum.toInt * 4).toNat = 4 * blk inum := by
    have := blk_eq h0
    omega
  have hseek : s.file.lseek (inum.toInt * 4) = s.file.seekTo (4 * blk inum) := by
    rw [File.lseek_of_nonneg _ (by omega), hoff]
  rw [updateCR, if_pos h.ne_neg_one, hseek]
  rfl

theorem crWrites_in_region {s : Server} {inum : Int32} (h : InRange inum) :
    ∀ w ∈ crWrites s inum, w.off + w.len ≤ crSize * 4096 := by
  have := h.blk_lt
  intro w hw
  simp only [crWrites, List.mem_cons, List.not_mem_nil, or_false] at hw
  rcases hw with rfl | rfl <;> simp only [crSize] <;> omega

/-- Writes inside the checkpoint region leave every block of the log alone. -/
theorem sameBlock_of_region {f : File} {ws : List WriteCall} {x : Int32} (hx : 6 ≤ x.toInt)
    (h : ∀ w ∈ ws, w.off + w.len ≤ crSize * 4096) : SameBlock (f.pwrites ws) f x := by
  have hblk := blk_eq (x := x) (by omega)
  intro o _
  refine File.pwrites_byte_of_forall ?_
  intro w hw
  have := h w hw
  simp only [crSize] at this
  omega

@[simp] theorem updateCR_imap (s : Server) (inum : Int32) : (updateCR s inum).imap = s.imap := rfl

@[simp] theorem updateCR_nextBlock (s : Server) (inum : Int32) :
    (updateCR s inum).nextBlock = s.nextBlock := rfl

/-- `update_CR` changes no inode. -/
theorem WF.checkpoint {s : Server} (h : WF s) {inum : Int32} (hi : InRange inum) :
    WF (updateCR s inum) ∧ (updateCR s inum).tree = s.tree := by
  have hframe : ∀ i, s.Allocated i → NodeWF (updateCR s inum) i ∧
      (updateCR s inum).inode i = s.inode i ∧
      nodeOf (updateCR s inum).file ((updateCR s inum).inode i) =
        nodeOf s.file (s.inode i) := by
    intro i ha
    rw [updateCR_eq hi]
    refine (h.node i ha).frame_same ha rfl (Int.le_refl _) File.size_le_pwrites ?_
    intro x hx
    exact sameBlock_of_region ((h.node i ha).owned x hx).1 (crWrites_in_region hi)
  have howns : ∀ i x, (updateCR s inum).Owns i x → s.Owns i x := by
    intro i x hx
    have hx' := hx
    rw [Server.Owns, (hframe i hx.1).2.1] at hx'
    exact hx'
  refine ⟨⟨h.inRange, fun i ha => (hframe i ha).1, ?_, h.next, h.bounded⟩, ?_⟩
  · intro i j x hx hy
    exact h.disjoint i j x (howns i x hx) (howns j x hy)
  · funext i
    by_cases ha : s.Allocated i
    · rw [tree_of_allocated ha, tree_of_allocated (s := updateCR s inum) ha, (hframe i ha).2.2]
    · rw [tree_of_not_allocated ha, tree_of_not_allocated (s := updateCR s inum) ha]

/-! ## Agreement of the region with the globals -/

/-- The checkpoint region holds `imap` and `next_block`. -/
structure InSync (s : Server) : Prop where
  size : 16388 ≤ s.file.size
  imap : ∀ i, InRange i → getInt s.file.byte (4 * blk i) = s.imap i
  next : getInt s.file.byte 16384 = s.nextBlock

section Sync

variable {s u : Server} {l : List WriteCall} {p : Nat} {inum : Int32}

/-- A write call in the log, past the checkpoint region. -/
def InLog (w : WriteCall) : Prop := crSize * 4096 ≤ w.off

theorem byte_of_inLog {f : File} {o : Nat} (hws : ∀ w ∈ l, InLog w) (ho : o < crSize * 4096) :
    (f.pwrites l).byte o = f.byte o := by
  refine File.pwrites_byte_of_forall ?_
  intro w hw
  have := hws w hw
  simp only [InLog] at this
  omega

/-- Writing in the log keeps the region in step, as long as the globals do not change. -/
theorem InSync.log (h : InSync s) (hfile : u.file = (s.file.pwrites l).seekTo p)
    (hws : ∀ w ∈ l, InLog w) (himap : ∀ i, InRange i → u.imap i = s.imap i)
    (hnext : u.nextBlock = s.nextBlock) : InSync u where
  size := by
    rw [hfile]
    exact Nat.le_trans h.size File.size_le_pwrites
  imap := by
    intro i hi
    have := hi.blk_lt
    rw [himap i hi, ← h.imap i hi, hfile]
    exact getInt_congr fun k hk => byte_of_inLog hws (by simp only [crSize]; omega)
  next := by
    rw [hnext, ← h.next, hfile]
    exact getInt_congr fun k hk => byte_of_inLog hws (by simp only [crSize]; omega)

/-- Writing `imap[inum]` to its cell. -/
theorem InSync.slot (h : InSync s) (hfile : u.file = (s.file.pwrites l).seekTo p)
    (hws : ∀ w ∈ l, InLog w) (hi : InRange inum)
    (himap : ∀ i, i ≠ inum → u.imap i = s.imap i) (hnext : u.nextBlock = s.nextBlock) :
    InSync { u with file := u.file.pwrite ⟨4 * blk inum, 4, intMem (u.imap inum)⟩ } := by
  have hblk := hi.blk_lt
  constructor
  · refine Nat.le_trans h.size (Nat.le_trans ?_ File.size_le_pwrite)
    rw [hfile]
    exact File.size_le_pwrites
  · intro i hir
    have hib := hir.blk_lt
    by_cases heq : i = inum
    · subst heq
      refine getInt_eq ?_
      intro k hk
      rw [File.pwrite_byte_of_mem (by simp) (by simp only; omega)]
      simp [intMem]
    · have hne : blk i ≠ blk inum := fun hc => heq (blk_inj hib.1 hblk.1 hc)
      simp only [himap i heq, ← h.imap i hir]
      refine getInt_congr ?_
      intro k hk
      have hlog := byte_of_inLog (f := s.file) hws (o := 4 * blk i + k) (by simp only [crSize]; omega)
      rw [File.pwrite_byte_of_not_mem (by simp only; omega), hfile]
      exact hlog
  · simp only [hnext, ← h.next]
    refine getInt_congr ?_
    intro k hk
    have hlog := byte_of_inLog (f := s.file) hws (o := 16384 + k) (by simp only [crSize]; omega)
    rw [File.pwrite_byte_of_not_mem (by simp only; omega), hfile]
    exact hlog

/-- Writing another `next_block` to its cell. -/
theorem InSync.commit (h : InSync s) (c : Int32) :
    InSync { s with nextBlock := c, file := s.file.pwrite ⟨16384, 4, intMem c⟩ } := by
  constructor
  · exact Nat.le_trans h.size File.size_le_pwrite
  · intro i hir
    have hib := hir.blk_lt
    simp only [← h.imap i hir]
    refine getInt_congr ?_
    intro k hk
    exact File.pwrite_byte_of_not_mem (by simp only; omega)
  · refine getInt_eq ?_
    intro k hk
    rw [File.pwrite_byte_of_mem (by simp) (by simp only; omega)]
    simp [intMem]

/-- `update_CR` restores the agreement after `imap[inum]` and `next_block` were changed. -/
theorem InSync.checkpoint (h : InSync s) (hfile : u.file = (s.file.pwrites l).seekTo p)
    (hws : ∀ w ∈ l, InLog w) (hi : InRange inum)
    (himap : ∀ i, i ≠ inum → u.imap i = s.imap i) : InSync (updateCR u inum) := by
  have hslot := h.slot (u := { u with nextBlock := s.nextBlock }) hfile hws hi himap rfl
  rw [updateCR_eq hi]
  exact hslot.commit u.nextBlock

end Sync

end Linux
end LfsXv6
