import LfsXv6.Linux.ListenServer

/-!
# Image — typed views of the blocks of an image

Every block of the image is an inode, a directory block or file data; which one depends on who points
to it.  `inodeAt`, `dirAt` and `dataAt` read block `x` as each of these.  The lemmas here execute the
`lseek`/`read` and `lseek`/`write` pairs of `lfs.c` on block numbers whose offset does not overflow,
and say when a view survives a list of write calls.
-/

namespace LfsXv6
namespace Linux

open Lib

/-! ## Block numbers -/

/-- The block number `x` as a natural number. -/
def blk (x : Int32) : Nat := x.toInt.toNat

/-- Block numbers whose byte offset fits an `int`. -/
def Fits (x : Int32) : Prop := 0 ≤ x.toInt ∧ x.toInt * 4096 < 2 ^ 31

theorem blk_eq {x : Int32} (h : 0 ≤ x.toInt) : (blk x : Int) = x.toInt :=
  Int.toNat_of_nonneg h

theorem blk_inj {x y : Int32} (hx : 0 ≤ x.toInt) (hy : 0 ≤ y.toInt) (h : blk x = blk y) : x = y := by
  rw [← Int32.toInt_inj, ← blk_eq hx, ← blk_eq hy, h]

theorem blockOff_eq {x : Int32} (h : Fits x) : blockOff x = ((blk x * 4096 : Nat) : Int) := by
  obtain ⟨h0, h1⟩ := h
  have hlit : (4096 : Int32).toInt = 4096 := by decide
  have hblk := blk_eq h0
  rw [blockOff, toInt_mul_of_fits (by rw [hlit]; omega) (by rw [hlit]; omega), hlit]
  omega

theorem toInt_succ_of_lt {x : Int32} (h₀ : 0 ≤ x.toInt) (h₁ : x.toInt < 2 ^ 31 - 1) :
    (x + 1).toInt = x.toInt + 1 := by
  have hlit : (1 : Int32).toInt = 1 := by decide
  rw [toInt_add_of_fits (by rw [hlit]; omega) (by rw [hlit]; omega), hlit]

theorem toInt_succ {x : Int32} (h : Fits x) : (x + 1).toInt = x.toInt + 1 :=
  toInt_succ_of_lt h.1 (by have := h.2; omega)

theorem succ_sub_one (x : Int32) : x + 1 - 1 = x := by
  rw [Int32.add_sub_cancel]

/-! ## Views -/

def inodeAt (f : File) (x : Int32) : Inode := Inode.decode (f.blockAt 4096 (blk x))

def dirAt (f : File) (x : Int32) : Directory := Directory.decode (f.blockAt 4096 (blk x))

def dataAt (f : File) (x : Int32) : Block := blockOf (f.blockAt 4096 (blk x))

/-- Two files hold the same bytes in block `x`. -/
def SameBlock (f g : File) (x : Int32) : Prop :=
  ∀ o, o < 4096 → f.blockAt 4096 (blk x) o = g.blockAt 4096 (blk x) o

section Views

variable {f g : File} {x y : Int32}

theorem SameBlock.inodeAt (h : SameBlock f g x) : inodeAt f x = inodeAt g x :=
  Inode.decode_congr fun o ho => h o (by simp only [inodeSize] at ho; omega)

theorem SameBlock.dirAt (h : SameBlock f g x) : dirAt f x = dirAt g x :=
  Directory.decode_congr h

theorem SameBlock.dataAt (h : SameBlock f g x) : dataAt f x = dataAt g x :=
  blockOf_congr h

@[simp] theorem inodeAt_seekTo (p : Nat) : inodeAt (f.seekTo p) x = inodeAt f x := rfl
@[simp] theorem dirAt_seekTo (p : Nat) : dirAt (f.seekTo p) x = dirAt f x := rfl
@[simp] theorem dataAt_seekTo (p : Nat) : dataAt (f.seekTo p) x = dataAt f x := rfl

end Views

/-! ## Executing a seek and the transfer after it -/

section Transfer

variable {f : File} {x : Int32}

theorem lseek_block (h : Fits x) : f.lseek (blockOff x) = f.seekTo (blk x * 4096) := by
  rw [blockOff_eq h, File.lseek_of_nonneg _ (Int.natCast_nonneg _), Int.toNat_natCast]

theorem readInode_block (h : Fits x) (hsize : blk x * 4096 + 124 ≤ f.size) (node : Inode) :
    readInode (f.lseek (blockOff x)) node = (inodeAt f x, f.seekTo (blk x * 4096 + 124)) := by
  rw [lseek_block h, readInode, File.read_full _ (by simpa using hsize)]
  simp only [File.seekTo_pos, File.seekTo_byte, File.seekTo_seekTo]
  congr 1
  refine Inode.decode_congr ?_
  intro o ho
  simp [ho, File.blockAt]

theorem readDirectory_block (h : Fits x) (hsize : blk x * 4096 + 4096 ≤ f.size) (d : Directory) :
    readDirectory (f.lseek (blockOff x)) d = (dirAt f x, f.seekTo (blk x * 4096 + 4096)) := by
  rw [lseek_block h, readDirectory, File.read_full _ (by simpa using hsize)]
  simp only [File.seekTo_pos, File.seekTo_byte, File.seekTo_seekTo]
  congr 1
  refine Directory.decode_congr ?_
  intro o ho
  simp [ho, File.blockAt]

theorem write_block (h : Fits x) (m : Mem) (len : Nat) :
    (f.lseek (blockOff x)).write m len = f.pwrite { off := blk x * 4096, len := len, data := m } := by
  rw [lseek_block h, File.seekTo_write]

end Transfer

/-! ## Views after a write -/

section AfterWrite

variable {f : File} {x y : Int32} {len : Nat} {m : Mem}

theorem inodeAt_pwrite_self {n : Inode} (hlen : 124 ≤ len) (hm : ∀ o, o < 124 → m o = n.encode o) :
    inodeAt (f.pwrite { off := blk x * 4096, len := len, data := m }) x = n := by
  refine Inode.decode_eq ?_
  intro o ho
  rw [File.blockAt_pwrite_self (by simp only [inodeSize] at ho; omega)]
  exact hm o ho

theorem dirAt_pwrite_self (d : Directory) :
    dirAt (f.pwrite { off := blk x * 4096, len := 4096, data := d.encode }) x = d := by
  refine Directory.decode_eq ?_
  intro o ho
  exact File.blockAt_pwrite_self ho

theorem dataAt_pwrite_self (b : Block) :
    dataAt (f.pwrite { off := blk x * 4096, len := 4096, data := b.mem }) x = b := by
  refine Eq.trans (blockOf_congr ?_) (blockOf_mem b)
  intro o ho
  exact File.blockAt_pwrite_self ho

theorem sameBlock_pwrite_ne (hlen : len ≤ 4096) (hne : blk x ≠ blk y) :
    SameBlock (f.pwrite { off := blk x * 4096, len := len, data := m }) f y :=
  fun _ ho => File.blockAt_pwrite_ne hlen hne ho

end AfterWrite

end Linux
end LfsXv6
