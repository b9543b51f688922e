import LfsXv6.Lib.Int32Codec

/-!
# Layout — the on-disk format of `fs.h`

Block 1 is the super block, inodes start at block 2, then comes the bitmap of blocks in use, then the
data.  A block is its 512 bytes; the records of `fs.h` are read from and written to them byte by byte.

There is one disk: every inode lives on `ROOTDEV`, so the device number is left out.
-/

namespace LfsXv6
namespace Xv6

open Lib

/-! ## Constants -/

/-- `BSIZE` -/
abbrev bsize : Nat := 512
/-- `NDIRECT` -/
abbrev ndirect : Nat := 12
/-- `NINDIRECT` -/
abbrev nindirect : Nat := 128
/-- `MAXFILE` -/
abbrev maxfile : Nat := 140
/-- `IPB`: inodes per block -/
abbrev ipb : Nat := 8
/-- `BPB`: bitmap bits per block -/
abbrev bpb : Nat := 4096
/-- `NBUF` -/
abbrev nbuf : Nat := 10
/-- `NDEV` -/
abbrev ndev : Int16 := 10

/-- `T_DIR` -/
abbrev tDir : Int16 := 1
/-- `T_FILE` -/
abbrev tFile : Int16 := 2
/-- `T_DEV` -/
abbrev tDev : Int16 := 3
/-- `T_CHECKED` -/
abbrev tChecked : Int16 := 4

theorem direct_lt {bn : Nat} (h : bn < ndirect) : bn < 13 := Nat.lt_succ_of_lt h

instance neZeroAddrs : NeZero 13 := ⟨by decide⟩

instance neZeroEntries : NeZero 128 := ⟨by decide⟩

instance neZeroInodes : NeZero 50 := ⟨by decide⟩

/-- `IBLOCK(i)` -/
def iblock (i : Nat) : Nat := i / ipb + 2

/-- `BBLOCK(b, ninodes)`; the sum never overflows an `uint`. -/
def bblock (b ninodes : Nat) : Nat := b / bpb + ninodes / ipb + 3

/-! ## Blocks -/

/-- The bytes of one block. -/
abbrev Sector := Mem

/-- `((uint*)data)[k]` -/
def Sector.word (d : Sector) (k : Nat) : UInt32 := (getInt d (4 * k)).toUInt32

/-- `((uint*)data)[k] = w` -/
def Sector.setWord (d : Sector) (k : Nat) (w : UInt32) : Sector :=
  fun o => if 4 * k ≤ o ∧ o < 4 * k + 4 then intByte w.toInt32 (o - 4 * k) else d o

/-- `memset(data, 0, BSIZE)` -/
def Sector.clear (d : Sector) : Sector := fun o => if o < bsize then 0 else d o

/-- `memmove(data + o, src, n)` for the `n` bytes of a list. -/
def Sector.store (d : Sector) (o : Nat) (src : List UInt8) : Sector :=
  fun k => if o ≤ k ∧ k < o + src.length then src.getD (k - o) 0 else d k

/-- `n` bytes from offset `o` on. -/
def Sector.slice (d : Sector) (o n : Nat) : List UInt8 := (List.range n).map fun k => d (o + k)

/-- The XOR of the 512 bytes, as `readi` and `writei` compute it. -/
@[irreducible] def Sector.checkSum (d : Sector) : UInt8 :=
  (List.range (bsize - 1)).foldl (fun acc k => acc ^^^ d (k + 1)) (d 0)

section Word

variable {d : Sector} {k j : Nat} {w : UInt32}

theorem word_setWord_self : (d.setWord k w).word k = w := by
  have hget : getInt (d.setWord k w) (4 * k) = w.toInt32 := by
    refine getInt_eq ?_
    intro b hb
    have hin : 4 * k ≤ 4 * k + b ∧ 4 * k + b < 4 * k + 4 := by omega
    rw [Sector.setWord, if_pos hin, Nat.add_sub_cancel_left]
  rw [Sector.word, hget]
  rfl

theorem word_setWord_ne (h : j ≠ k) : (d.setWord k w).word j = d.word j := by
  rw [Sector.word, Sector.word]
  congr 1
  refine getInt_congr ?_
  intro b hb
  have hout : ¬ (4 * k ≤ 4 * j + b ∧ 4 * j + b < 4 * k + 4) := by omega
  rw [Sector.setWord, if_neg hout]

theorem word_congr {d' : Sector} (h : ∀ o, o < bsize → d o = d' o) (hk : k < nindirect) :
    d.word k = d'.word k := by
  rw [Sector.word, Sector.word]
  congr 1
  exact getInt_congr fun b hb => h _ (by simp only [bsize]; simp only [nindirect] at hk; omega)

end Word

/-! ## The bitmap -/

/-- `m = 1 << (bi % 8)` -/
def bitMask (bi : Nat) : UInt8 := 1 <<< UInt8.ofNat (bi % 8)

/-- `(data[bi/8] & m) != 0` -/
def Sector.bit (d : Sector) (bi : Nat) : Bool := d (bi / 8) &&& bitMask bi != 0

/-- `data[bi/8] |= m` -/
def Sector.setBit (d : Sector) (bi : Nat) : Sector :=
  Function.update d (bi / 8) (d (bi / 8) ||| bitMask bi)

/-- `data[bi/8] &= ~m` -/
def Sector.clearBit (d : Sector) (bi : Nat) : Sector :=
  Function.update d (bi / 8) (d (bi / 8) &&& ~~~ bitMask bi)

/-! ## Records -/

/-- `struct superblock`, as far as the kernel looks at it. -/
structure Superblock where
  size : UInt32
  ninodes : UInt32
deriving DecidableEq

def Superblock.decode (d : Sector) : Superblock where
  size := d.word 0
  ninodes := d.word 2

/-- The fields of an inode: `struct dinode`, and the copy of it in `struct inode`. -/
@[ext] structure Dinode where
  type : Int16
  major : Int16
  minor : Int16
  nlink : Int16
  size : UInt32
  addrs : Fin 13 → UInt32

/-- The `short` at offset `o`. -/
def getShort (m : Mem) (o : Nat) : Int16 := Int16.ofNat ((m o).toNat + 256 * (m (o + 1)).toNat)

/-- Byte `k` of a `short`. -/
def shortByte (x : Int16) (k : Nat) : UInt8 := UInt8.ofNat (x.toBitVec.toNat / 256 ^ k)

theorem getShort_eq {m : Mem} {o : Nat} {x : Int16} (h : ∀ k, k < 2 → m (o + k) = shortByte x k) :
    getShort m o = x := by
  have h0 := h 0 (by omega)
  have h1 := h 1 (by omega)
  have hlt : x.toBitVec.toNat < 2 ^ 16 := x.toBitVec.isLt
  rw [Nat.add_zero] at h0
  rw [getShort, h0, h1]
  simp only [shortByte, UInt8.toNat_ofNat']
  have hsum : x.toBitVec.toNat / 256 ^ 0 % 2 ^ 8 + 256 * (x.toBitVec.toNat / 256 ^ 1 % 2 ^ 8) =
      x.toBitVec.toNat := by omega
  rw [hsum, Int16.ofNat_bitVecToNat, Int16.ofBitVec_toBitVec]

namespace Dinode

/-- The 64 bytes of a `struct dinode`. -/
def encode (n : Dinode) : Mem := fun o =>
  if o < 2 then shortByte n.type o
  else if o < 4 then shortByte n.major (o - 2)
  else if o < 6 then shortByte n.minor (o - 4)
  else if o < 8 then shortByte n.nlink (o - 6)
  else if o < 12 then intByte n.size.toInt32 (o - 8)
  else intByte (n.addrs (Fin.ofNat 13 ((o - 12) / 4))).toInt32 ((o - 12) % 4)

def decode (m : Mem) : Dinode where
  type := getShort m 0
  major := getShort m 2
  minor := getShort m 4
  nlink := getShort m 6
  size := (getInt m 8).toUInt32
  addrs := fun k => (getInt m (12 + 4 * k)).toUInt32

end Dinode

/-- `(struct dinode*)data + k` -/
def Sector.dinode (d : Sector) (k : Nat) : Dinode := Dinode.decode fun o => d (64 * k + o)

/-- `((struct dinode*)data)[k] = n` -/
def Sector.setDinode (d : Sector) (k : Nat) (n : Dinode) : Sector :=
  fun o => if 64 * k ≤ o ∧ o < 64 * k + 64 then n.encode (o - 64 * k) else d o

theorem decode_encode {m : Mem} {n : Dinode} (h : ∀ o, o < 64 → m o = n.encode o) :
    Dinode.decode m = n := by
  ext k
  · exact getShort_eq fun b hb => by
      rw [h _ (by omega), Dinode.encode, if_pos (by omega), Nat.zero_add]
  · exact getShort_eq fun b hb => by
      rw [h _ (by omega), Dinode.encode, if_neg (by omega), if_pos (by omega), Nat.add_sub_cancel_left]
  · exact getShort_eq fun b hb => by
      rw [h _ (by omega), Dinode.encode, if_neg (by omega), if_neg (by omega), if_pos (by omega),
        Nat.add_sub_cancel_left]
  · exact getShort_eq fun b hb => by
      rw [h _ (by omega), Dinode.encode, if_neg (by omega), if_neg (by omega), if_neg (by omega),
        if_pos (by omega), Nat.add_sub_cancel_left]
  · have hget : getInt m 8 = n.size.toInt32 := getInt_eq fun b hb => by
      rw [h _ (by omega), Dinode.encode, if_neg (by omega), if_neg (by omega), if_neg (by omega),
        if_neg (by omega), if_pos (by omega), Nat.add_sub_cancel_left]
    simp only [Dinode.decode, hget]
    rfl
  · have hk := k.isLt
    have hget : getInt m (12 + 4 * k) = (n.addrs k).toInt32 := getInt_eq fun b hb => by
      have hdiv : (12 + 4 * (k : Nat) + b - 12) / 4 = k := by omega
      have hmod : (12 + 4 * (k : Nat) + b - 12) % 4 = b := by omega
      have hfin : Fin.ofNat 13 (k : Nat) = k := by
        ext
        simp
      rw [h _ (by omega), Dinode.encode, if_neg (by omega), if_neg (by omega), if_neg (by omega),
        if_neg (by omega), if_neg (by omega), hdiv, hmod, hfin]
    simp only [Dinode.decode, hget]
    rfl

section Dinodes

variable {d : Sector} {k j : Nat} {n : Dinode}

theorem dinode_setDinode_self : (d.setDinode k n).dinode k = n := by
  refine decode_encode ?_
  intro o ho
  have hin : 64 * k ≤ 64 * k + o ∧ 64 * k + o < 64 * k + 64 := by omega
  rw [Sector.setDinode, if_pos hin, Nat.add_sub_cancel_left]

theorem decode_congr {m m' : Mem} (h : ∀ o, o < 64 → m o = m' o) :
    Dinode.decode m = Dinode.decode m' := by
  have hshort : ∀ o, o + 2 ≤ 64 → getShort m o = getShort m' o := by
    intro o ho
    rw [getShort, getShort, h o (by omega), h (o + 1) (by omega)]
  have hint : ∀ o, o + 4 ≤ 64 → getInt m o = getInt m' o :=
    fun o ho => getInt_congr fun b hb => h _ (by omega)
  ext k
  · exact hshort 0 (by omega)
  · exact hshort 2 (by omega)
  · exact hshort 4 (by omega)
  · exact hshort 6 (by omega)
  · exact congrArg (fun x => x.toUInt32.toNat) (hint 8 (by omega))
  · have := k.isLt
    exact congrArg (fun x => x.toUInt32.toNat) (hint (12 + 4 * k) (by omega))

theorem dinode_setDinode_ne (h : j ≠ k) : (d.setDinode k n).dinode j = d.dinode j := by
  refine decode_congr ?_
  intro o ho
  have hout : ¬ (64 * k ≤ 64 * j + o ∧ 64 * j + o < 64 * k + 64) := by omega
  rw [Sector.setDinode, if_neg hout]

end Dinodes

/-- `struct dirent`: `inum`, and the name up to its terminator (at most `DIRSIZ` bytes). -/
structure Dirent where
  inum : UInt16
  name : List UInt8
deriving DecidableEq

/-- The name that `strncmp(_, _, DIRSIZ)` sees. -/
def cname (m : Mem) : List UInt8 := ((List.range 14).map m).takeWhile (· != 0)

def Dirent.decode (m : Mem) : Dirent where
  inum := UInt16.ofNat ((m 0).toNat + 256 * (m 1).toNat)
  name := cname fun o => m (2 + o)

/-- The 16 bytes of an entry; `strncpy` fills up with zeroes. -/
def Dirent.encode (e : Dirent) : List UInt8 :=
  [UInt8.ofNat e.inum.toNat, UInt8.ofNat (e.inum.toNat / 256)] ++
    (e.name.take 14 ++ List.replicate (14 - e.name.length) 0)

/-- `(struct dirent*)data + k` -/
def Sector.dirent (d : Sector) (k : Nat) : Dirent := Dirent.decode fun o => d (16 * k + o)

end Xv6
end LfsXv6
