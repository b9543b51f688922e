import LfsXv6.Xv6.Accounting

/-!
# Allocator — what `balloc` hands out and `bfree` takes back

The outer loop of `balloc` compares the first block of a bitmap block with `sb.size`; the bits of the
last bitmap block past `sb.size` are looked at like the others.  So `balloc` returns the first block
with a clear bit, and on a full disk that is a block behind its end.

An `int` counts the blocks.  It does not overflow on a disk of at most 2^28 blocks, and a sector number
has no more bits on its way to the disk.
-/

namespace LfsXv6
namespace Xv6

open Lib Prog

section Allocator

variable {sb : Superblock} {s : Bufs}

/-- What `balloc` promises: it panics when the disk is full and only then, and otherwise it returns a
free block of the disk and marks it. -/
structure BallocExact (sb : Superblock) (s : Bufs) : Prop where
  panics : (∃ message, balloc s = .error (.panic message)) ↔
    ∀ b, b < sb.size.toNat → marked sb s.disk b
  returns : (∃ message, balloc s = .error (.panic message)) ∨ ∃ r t, balloc s = .ok (r, t) ∧
    r.toNat < sb.size.toNat ∧ ¬ marked sb s.disk r.toNat ∧ marked sb t.disk r.toNat ∧
    ∀ c, c ≠ r.toNat → (marked sb t.disk c ↔ marked sb s.disk c)

/-- What `bfree` promises: it clears the bit of the block and no other bit of the bitmap. -/
def BfreeExact (sb : Superblock) (s : Bufs) (b : UInt32) : Prop :=
  ∃ t, bfree b s = .ok ((), t) ∧ ¬ marked sb t.disk b.toNat ∧
    ∀ c, c < sb.cap → c ≠ b.toNat → (marked sb t.disk c ↔ marked sb s.disk c)

theorem size_le_cap : sb.size.toNat ≤ sb.cap := by
  simp only [Superblock.cap, bpb]
  omega

theorem bfreeExact (hsuper : Superblock.decode (s.disk 1) = sb) (hq : Quiet sb s.busy) {b : UInt32}
    (hb : b.toNat < sb.size.toNat) (hmark : marked sb s.disk b.toNat) (hone : b.toNat ≠ 1)
    (hdata : ¬ sb.BitmapBlock b.toNat) (hfree : b.toNat ∉ s.busy) : BfreeExact sb s b := by
  have hcap : b.toNat < sb.cap := hb.trans_le size_le_cap
  refine ⟨_, bfree_marked hsuper hq hcap hmark hone hdata hfree, not_marked_unmark_self, ?_⟩
  intro c hc hne
  exact marked_unmark_ne hdata hc hne

/-- The numbers that `balloc` counts through with an `int`: the blocks that the bitmap has bits for, and
the bound at which the outer loop stops. -/
theorem cap_lt (hsize : sb.size.toNat ≤ 2 ^ 28) : sb.cap < 2 ^ 31 := by
  simp only [Superblock.cap, bpb]
  omega

/-- **The block allocator.**  On a disk whose block numbers fit the 28 bits of a sector number, the `int`
of `balloc` does not overflow; `balloc` hands out free blocks of the disk, and panics on a full disk
alone, exactly when some block of the disk is free or all bits past its end are set; and `bfree` of a
marked block, neither the super block nor a block of the bitmap, clears its bit and no other. -/
theorem balloc_exact_iff (hsize : sb.size.toNat ≤ 2 ^ 28) (hsuper : Superblock.decode (s.disk 1) = sb)
    (hq : Quiet sb s.busy) :
    sb.cap < 2 ^ 31 ∧
    ((BallocExact sb s ∧ ∀ b : UInt32, b.toNat < sb.size.toNat → marked sb s.disk b.toNat →
        b.toNat ≠ 1 → ¬ sb.BitmapBlock b.toNat → b.toNat ∉ s.busy → BfreeExact sb s b) ↔
      (∃ b, b < sb.size.toNat ∧ ¬ marked sb s.disk b) ∨
        ∀ b, sb.size.toNat ≤ b → b < sb.cap → marked sb s.disk b) := by
  refine ⟨cap_lt hsize, ?_⟩
  rcases balloc_first hsuper hq with ⟨r, t, hrun, hr, hclear, hfirst, ht⟩ | ⟨hfull, message, hrun⟩
  · have hreturns : ¬ ∃ message, balloc s = .error (.panic message) := by
      rintro ⟨message, hpanic⟩
      rw [hrun] at hpanic
      cases hpanic
    constructor
    · rintro ⟨⟨hpanics, _⟩, _⟩
      left
      by_contra hno
      refine hreturns (hpanics.mpr ?_)
      intro b hb
      by_contra hfree
      exact hno ⟨b, hb, hfree⟩
    · intro hcond
      have hin : r.toNat < sb.size.toNat := by
        by_contra hout
        rcases hcond with ⟨b, hb, hfree⟩ | hpast
        · exact hfree (hfirst b (by omega))
        · exact hclear (hpast _ (by omega) hr)
      refine ⟨⟨iff_of_false hreturns fun hfull => hclear (hfull _ hin), ?_⟩, ?_⟩
      · refine .inr ⟨r, t, hrun, hin, hclear, ?_, ?_⟩
        · rw [ht]
          exact marked_mark_self
        · intro c hc
          rw [ht]
          exact marked_mark_ne hc
      · intro b hb hmark hone hdata hfree
        exact bfreeExact hsuper hq hb hmark hone hdata hfree
  · have hpanics : ∃ message, balloc s = .error (.panic message) := ⟨message, hrun⟩
    refine iff_of_true ⟨⟨?_, .inl hpanics⟩, ?_⟩ (.inr fun b _ hb => hfull b hb)
    · exact iff_of_true hpanics fun b hb => hfull b (hb.trans_le size_le_cap)
    · intro b hb hmark hone hdata hfree
      exact bfreeExact hsuper hq hb hmark hone hdata hfree

/-- A disk of 8 blocks, all in use.  The rest of its bitmap block is clear. -/
def fullDisk : Nat → Sector
  | 1 => Sector.zeros.setWord 0 8
  | 3 => Function.update Sector.zeros 0 0xff
  | _ => Sector.zeros

theorem fullDisk_super : Superblock.decode (fullDisk 1) = ⟨8, 0⟩ := by decide +kernel

theorem marked_fullDisk : ∀ b, b < 8 → marked ⟨8, 0⟩ fullDisk b := by
  have hall : ∀ b : Fin 8, (fullDisk 3).bit b = true := by decide +kernel
  intro b hb
  have hsec : bblock b 0 = 3 := by
    simp only [bblock, bpb, ipb]
    omega
  have hmod : b % bpb = b := by
    simp only [bpb]
    omega
  show (fullDisk (bblock b 0)).bit (b % bpb) = true
  rw [hsec, hmod]
  exact hall ⟨b, hb⟩

theorem not_marked_fullDisk : ¬ marked ⟨8, 0⟩ fullDisk 8 := by
  show ¬ (fullDisk 3).bit 8 = true
  decide +kernel

theorem balloc_exact_full : ¬ (BallocExact ⟨8, 0⟩ ⟨fullDisk, []⟩ ∧ ∀ b : UInt32,
    b.toNat < 8 → marked ⟨8, 0⟩ fullDisk b.toNat → b.toNat ≠ 1 →
      ¬ (Superblock.mk 8 0).BitmapBlock b.toNat → b.toNat ∉ ([] : List Nat) →
      BfreeExact ⟨8, 0⟩ ⟨fullDisk, []⟩ b) := by
  intro h
  rcases (balloc_exact_iff (s := ⟨fullDisk, []⟩) (by decide) fullDisk_super Quiet.nil).2.mp h with
    ⟨b, hb, hfree⟩ | hpast
  · exact hfree (marked_fullDisk b hb)
  · exact not_marked_fullDisk (hpast 8 (by decide) (by decide))

/-- With all 8 blocks in use `balloc` returns block 8, behind the end of the disk. -/
theorem not_balloc_exact : ¬ ∀ (sb : Superblock) (s : Bufs), 1 ≤ sb.size.toNat →
    Superblock.decode (s.disk 1) = sb → Quiet sb s.busy → BallocExact sb s := by
  intro hclaim
  have hexact := hclaim ⟨8, 0⟩ ⟨fullDisk, []⟩ (by decide) fullDisk_super Quiet.nil
  obtain ⟨message, hpanic⟩ := hexact.panics.mpr marked_fullDisk
  rcases balloc_first (s := ⟨fullDisk, []⟩) fullDisk_super Quiet.nil with ⟨r, t, hrun, _⟩ | ⟨hfull, _⟩
  · rw [hrun] at hpanic
    cases hpanic
  · exact not_marked_fullDisk (hfull 8 (by decide))

end Allocator

end Xv6
end LfsXv6
