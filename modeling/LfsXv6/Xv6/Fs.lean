import LfsXv6.Xv6.Bio

/-!
# Fs — blocks and files of `fs.c`

The lower two layers of `fs.c`: the block allocator, and inodes with their contents.  A function that
gets a `struct inode *` here gets the inode and returns it as it left it; the table of in-core inodes
is the business of `Icache`.
-/

namespace LfsXv6
namespace Xv6

open Lib Prog

/-! ## Blocks -/

/-- `readsb` -/
def readsb : Prog Bufs Superblock := do
  let data ← bread 1
  brelse 1
  return Superblock.decode data

/-- `bzero` -/
def bzero (bno : Nat) : Prog Bufs Unit := do
  let data ← bread bno
  bwrite bno data.clear
  brelse bno

/-- The first clear bit of a bitmap block. -/
@[irreducible] def Sector.freeBit (d : Sector) : Option Nat := (List.range bpb).find? fun bi => !d.bit bi

/-- The loop of `balloc` over the bitmap blocks; `b` counts blocks of `BPB` bits. -/
def ballocLoop (ninodes : Nat) : List Nat → Prog Bufs UInt32
  | [] => halt "balloc: out of blocks"
  | b :: bs => do
      let sector := bblock (b * bpb) ninodes
      let data ← bread sector
      match data.freeBit with
      | some bi => do
          bwrite sector (data.setBit bi)
          brelse sector
          return UInt32.ofNat (b * bpb + bi)
      | none => do
          brelse sector
          ballocLoop ninodes bs

/-- `balloc`: the bits of the last bitmap block past `sb.size` are looked at as well. -/
def balloc : Prog Bufs UInt32 := do
  let sb ← readsb
  ballocLoop sb.ninodes.toNat (List.range ((sb.size.toNat + (bpb - 1)) / bpb))

/-- `bfree` -/
def bfree (b : UInt32) : Prog Bufs Unit := do
  bzero b.toNat
  let sb ← readsb
  let sector := bblock b.toNat sb.ninodes.toNat
  let data ← bread sector
  let bi := b.toNat % bpb
  if data.bit bi = false then halt "freeing free block"
  else do
    bwrite sector (data.clearBit bi)
    brelse sector

/-! ## Inodes -/

/-- An in-core inode without its reference count and flags. -/
@[ext] structure Inode extends Dinode where
  inum : Nat

/-- The loop of `ialloc`; `iget` on the number it returns is left to the caller. -/
def iallocLoop (type : Int16) : List Nat → Prog Bufs Nat
  | [] => halt "ialloc: no inodes"
  | inum :: inums => do
      let data ← bread (iblock inum)
      if (data.dinode (inum % ipb)).type = 0 then do
        bwrite (iblock inum) (data.setDinode (inum % ipb)
          { type := type, major := 0, minor := 0, nlink := 0, size := 0, addrs := fun _ => 0 })
        brelse (iblock inum)
        return inum
      else do
        brelse (iblock inum)
        iallocLoop type inums

/-- `ialloc`, up to its last call -/
def ialloc (type : Int16) : Prog Bufs Nat := do
  let sb ← readsb
  iallocLoop type ((List.range sb.ninodes.toNat).drop 1)

/-- `iupdate` -/
def iupdate (ip : Inode) : Prog Bufs Unit := do
  let data ← bread (iblock ip.inum)
  bwrite (iblock ip.inum) (data.setDinode (ip.inum % ipb) ip.toDinode)
  brelse (iblock ip.inum)

/-- The part of `ilock` that copies the inode from disk. -/
def iload (inum : Nat) : Prog Bufs Inode := do
  let data ← bread (iblock inum)
  brelse (iblock inum)
  return { toDinode := data.dinode (inum % ipb), inum := inum }

/-! ## Inode contents -/

/-- `x & 0x00ffffff` -/
def maskAddr (x : UInt32) : UInt32 := x &&& 0x00ffffff

/-- `(x & 0xff000000) >> SHIFT3BYTES` -/
def checkByte (x : UInt32) : UInt8 := ((x &&& 0xff000000) >>> 24).toUInt8

/-- `(x & 0x00ffffff) | (checkSum << SHIFT3BYTES)` -/
def withCheck (x : UInt32) (checkSum : UInt8) : UInt32 := maskAddr x ||| (checkSum.toUInt32 <<< 24)

/-- What `bmap` takes for the disk address in a stored word. -/
def addrOf (type : Int16) (x : UInt32) : UInt32 := if type = tChecked then maskAddr x else x

/-- `ip->addrs[k] = x` -/
def Inode.setAddr (ip : Inode) (k : Fin 13) (x : UInt32) : Inode :=
  { ip with addrs := Function.update ip.addrs k x }

/-- `bmap` for a slot of `ip->addrs`: its address, allocated first when there is none. -/
def bmapSlot (ip : Inode) (k : Fin 13) : Prog Bufs (UInt32 × Inode) := do
  let addr := addrOf ip.type (ip.addrs k)
  if addr = 0 then do
    let b ← balloc
    let addr := addrOf ip.type b
    return (addr, ip.setAddr k addr)
  else return (addr, ip)

/-- The end of `bmap` for entry `bn` of the indirect block at `ind`. -/
def bmapEntry (type : Int16) (ind : Nat) (bn : Nat) : Prog Bufs UInt32 := do
  let a ← bread ind
  let addr := addrOf type (a.word bn)
  if addr = 0 then do
    let b ← balloc
    let addr := addrOf type b
    bwrite ind (a.setWord bn addr)
    brelse ind
    return addr
  else do
    brelse ind
    return addr

/-- `bmap`.  The branches for `T_CHECKED` and for the other types differ in the mask only. -/
def bmap (ip : Inode) (bn : Nat) : Prog Bufs (UInt32 × Inode) :=
  if h : bn < ndirect then bmapSlot ip ⟨bn, direct_lt h⟩
  else if bn - ndirect < nindirect then do
    let (ind, ip) ← bmapSlot ip 12
    let addr ← bmapEntry ip.type ind.toNat (bn - ndirect)
    return (addr, ip)
  else halt "bmap: out of range"

/-- The first loop of `itrunc`: the addresses are passed to `bfree` as they are stored. -/
def itruncDirect (ip : Inode) : List (Fin 13) → Prog Bufs Inode
  | [] => return ip
  | k :: ks =>
      if ip.addrs k ≠ 0 then do
        bfree (ip.addrs k)
        itruncDirect (ip.setAddr k 0) ks
      else itruncDirect ip ks

/-- The loop of `itrunc` over the entries of the indirect block. -/
def itruncEntries (a : Sector) (js : List Nat) : Prog Bufs Unit :=
  each (fun j => if a.word j ≠ 0 then bfree (a.word j) else pure ()) js

/-- The part of `itrunc` for the indirect block. -/
def itruncIndirect (ip : Inode) : Prog Bufs Inode :=
  if ip.addrs 12 ≠ 0 then do
    let a ← bread (ip.addrs 12).toNat
    itruncEntries a (List.range nindirect)
    brelse (ip.addrs 12).toNat
    bfree (ip.addrs 12)
    return ip.setAddr 12 0
  else return ip

/-- The slots of the direct blocks in `addrs`. -/
def directSlots : List (Fin 13) := List.ofFn fun k : Fin 12 => k.castSucc

/-- `itrunc` -/
def itrunc (ip : Inode) : Prog Bufs Inode := do
  let ip ← itruncDirect ip directSlots
  let ip ← itruncIndirect ip
  let ip := { ip with size := 0 }
  iupdate ip
  return ip

/-- `struct stat` -/
structure Stat where
  type : Int16
  ino : Nat
  nlink : Int16
  size : UInt32
  checksum : UInt8

/-- `stati`.  The indirect block is read and its buffer never released. -/
def stati (ip : Inode) : Prog Bufs Stat := do
  let checkSum : UInt8 :=
    directSlots.foldl (fun acc k => acc ^^^ checkByte (ip.addrs k)) 0
  let indir ← bread (maskAddr (ip.addrs 12)).toNat
  let checkSum := (List.range 64).foldl (fun acc i => acc ^^^ checkByte (indir.word i)) checkSum
  return { type := ip.type, ino := ip.inum, nlink := ip.nlink, size := ip.size, checksum := checkSum }

/-- `devsw`, for the device files.  Their functions do not touch buffers. -/
structure Devsw where
  read : Int16 → Option (UInt32 → Int32 × List UInt8)
  write : Int16 → Option (List UInt8 → Int32)

/-- The turns of the loops of `readi` and `writei`: the offset of each and its `m`. -/
def pieces : Nat → Nat → Nat → List (Nat × Nat)
  | 0, _, _ => []
  | fuel + 1, off, n =>
      if n = 0 then []
      else
        let m := min n (bsize - off % bsize)
        (off, m) :: pieces fuel (off + m) (n - m)

/-- The checksum stored for block `bn`: in the inode, or in the indirect block. -/
def storedCheck (ip : Inode) (bn : Nat) : Prog Bufs UInt8 :=
  if h : bn < ndirect then return checkByte (ip.addrs ⟨bn, direct_lt h⟩)
  else do
    let ind := (maskAddr (ip.addrs 12)).toNat
    let indir ← bread ind
    brelse ind
    return checkByte (indir.word (bn - ndirect))

/-- The loop of `readi`: `false` when a checksum did not match, and the bytes copied to `dst`. -/
def readiLoop (ip : Inode) : List (Nat × Nat) → Prog Bufs ((Bool × List UInt8) × Inode)
  | [] => return ((true, []), ip)
  | (off, m) :: ps => do
      let (addr, ip) ← bmap ip (off / bsize)
      let data ← bread addr.toNat
      let out := data.slice (off % bsize) m
      brelse addr.toNat
      if ip.type = tChecked then do
        let (addr, ip) ← bmap ip (off / bsize)
        let data ← bread addr.toNat
        brelse addr.toNat
        let stored ← storedCheck ip (off / bsize)
        if stored ≠ data.checkSum then return ((false, out), ip)
        else do
          let ((good, rest), ip) ← readiLoop ip ps
          return ((good, out ++ rest), ip)
      else do
        let ((good, rest), ip) ← readiLoop ip ps
        return ((good, out ++ rest), ip)

/-- `readi`: the return value and the bytes copied to `dst`. -/
def readi (dev : Devsw) (ip : Inode) (off n : UInt32) :
    Prog Bufs ((Int32 × List UInt8) × Inode) :=
  if ip.type = tDev then
    if ip.major < 0 ∨ ip.major ≥ ndev then return ((-1, []), ip)
    else
      match dev.read ip.major with
      | none => return ((-1, []), ip)
      | some read => return (read n, ip)
  else if off > ip.size ∨ off + n < off then return ((-1, []), ip)
  else do
    let n := if off + n > ip.size then ip.size - off else n
    let ((good, out), ip) ← readiLoop ip (pieces n.toNat off.toNat n.toNat)
    if good then return ((n.toInt32, out), ip) else return ((-1, out), ip)

/-- The new checksum of block `bn` is stored: in the inode, or in the indirect block. -/
def storeCheck (ip : Inode) (bn : Nat) (checkSum : UInt8) : Prog Bufs Inode :=
  if h : bn < ndirect then
    return ip.setAddr ⟨bn, direct_lt h⟩
      (withCheck (ip.addrs ⟨bn, direct_lt h⟩) checkSum)
  else do
    let ind := (maskAddr (ip.addrs 12)).toNat
    let indir ← bread ind
    bwrite ind (indir.setWord (bn - ndirect) (withCheck (indir.word (bn - ndirect)) checkSum))
    brelse ind
    return ip

/-- The part of the loop of `writei` for checked files: block `bn` is read back and summed up. -/
def recheck (ip : Inode) (bn : Nat) : Prog Bufs Inode :=
  if ip.type = tChecked then do
    let (addr, ip) ← bmap ip bn
    let data ← bread addr.toNat
    brelse addr.toNat
    storeCheck ip bn data.checkSum
  else return ip

/-- The loop of `writei`. -/
def writeiLoop (ip : Inode) : List (Nat × Nat) → List UInt8 → Prog Bufs Inode
  | [], _ => return ip
  | (off, m) :: ps, src => do
      let (addr, ip) ← bmap ip (off / bsize)
      let data ← bread addr.toNat
      bwrite addr.toNat (data.store (off % bsize) (src.take m))
      brelse addr.toNat
      let ip ← recheck ip (off / bsize)
      writeiLoop ip ps (src.drop m)

/-- `writei` of the bytes `src` (`n` is their number).  The inode is written back even when nothing
was written. -/
def writei (dev : Devsw) (ip : Inode) (src : List UInt8) (off n : UInt32) :
    Prog Bufs (Int32 × Inode) :=
  if ip.type = tDev then
    if ip.major < 0 ∨ ip.major ≥ ndev then return (-1, ip)
    else
      match dev.write ip.major with
      | none => return (-1, ip)
      | some write => return (write src, ip)
  else if off > ip.size ∨ off + n < off then return (-1, ip)
  else do
    let n := if off + n > 71680 then 71680 - off else n
    let ip ← writeiLoop ip (pieces n.toNat off.toNat n.toNat) src
    let ip := if n > 0 ∧ off + n > ip.size then { ip with size := off + n } else ip
    iupdate ip
    return (n.toInt32, ip)

end Xv6
end LfsXv6
