import LfsXv6.Xv6.Fs

/-!
# Mkfs — `tools/mkfs.c`

The host tool that builds a disk image from a directory of the host.  It has its own code for the
format: blocks and inode numbers are taken in order from two counters, files are built by appending,
and the bitmap is written at the end.  Failed assertions and calls of `exit` stop the program.
-/

namespace LfsXv6
namespace Xv6

open Lib Prog

/-- The entries of a directory of the host, in the order in which `readdir_r` returns them: files with
the chunks in which `read` returns their bytes, and directories. -/
inductive Entries where
  | nil
  | file (name : List UInt8) (chunks : List (List UInt8)) (rest : Entries)
  | dir (name : List UInt8) (sub : Entries) (rest : Entries)

/-- A write to the image: of an inode, or of a block that `iappend` has allocated. -/
inductive ImageWrite where
  | inode (inum : Nat)
  | data (sector : Nat)
  deriving DecidableEq

/-- The image file with its length in sectors, and the counters.  `writes` records what `winode` and
`iappend` have written, last first. -/
structure Image where
  sect : Nat → Sector
  len : Nat
  freeblock : Nat
  usedblocks : Nat
  freeinode : Nat
  writes : List ImageWrite

/-- The state in which `main` starts: the file has just been truncated. -/
def Image.blank : Image where
  sect := fun _ _ => 0
  len := 0
  freeblock := 0
  usedblocks := 0
  freeinode := 1
  writes := []

/-- `rsect`; reading behind the end of the file fails. -/
def rsect (sec : Nat) : Prog Image Sector := fun s =>
  if sec < s.len then .ok (s.sect sec, s) else .error (.panic "read")

/-- `wsect` -/
def wsect (sec : Nat) (buf : Sector) : Prog Image Unit :=
  assign fun s => { s with sect := Function.update s.sect sec buf, len := max s.len (sec + 1) }

def record (w : ImageWrite) : Prog Image Unit := assign fun s => { s with writes := w :: s.writes }

/-- The sector of the superblock, with `size`, `nblocks` and `ninodes`. -/
def superSector (nblocks ninodes size : Nat) : Sector :=
  ((Sector.setWord (fun _ => 0) 0 (UInt32.ofNat size)).setWord 1 (UInt32.ofNat nblocks)).setWord 2
    (UInt32.ofNat ninodes)

/-- `mkfs` -/
def mkfs (nblocks ninodes size : Nat) : Prog Image Unit := do
  let bitblocks := size / 4096 + 1
  let used := ninodes / ipb + 3 + bitblocks
  assign fun s => { s with usedblocks := used, freeblock := used }
  if nblocks + used ≠ size then halt "nblocks + usedblocks == size"
  else do
    each (fun i => wsect i fun _ => 0) (List.range (nblocks + used))
    wsect 1 (superSector nblocks ninodes size)

/-- `rinode` -/
def rinode (inum : Nat) : Prog Image Dinode := do
  let buf ← rsect (iblock inum)
  return buf.dinode (inum % ipb)

/-- `winode` -/
def winode (inum : Nat) (ip : Dinode) : Prog Image Unit := do
  let buf ← rsect (iblock inum)
  wsect (iblock inum) (buf.setDinode (inum % ipb) ip)
  record (.inode inum)

/-- The inode that `mkfs`'s `ialloc` writes. -/
def madeInode (type : Int16) : Dinode :=
  { type := type, major := 0, minor := 0, nlink := 1, size := 0, addrs := fun _ => 0 }

/-- `ialloc` of `mkfs.c` -/
def hostIalloc (type : Int16) : Prog Image Nat := do
  let inum ← look fun s => s.freeinode
  assign fun s => { s with freeinode := s.freeinode + 1 }
  winode inum (madeInode type)
  return inum

/-- `xint(freeblock++)` with `usedblocks++` -/
def takeBlock : Prog Image UInt32 := do
  let b ← look fun s => s.freeblock
  assign fun s => { s with freeblock := s.freeblock + 1, usedblocks := s.usedblocks + 1 }
  return UInt32.ofNat b

/-- A slot of `addrs` gets a block if it has none. -/
def fillSlot (ip : Inode) (k : Fin 13) : Prog Image Inode :=
  if ip.addrs k = 0 then do
    let x ← takeBlock
    return ip.setAddr k x
  else return ip

/-- The address of block `fbn` of the file, allocated if need be: the first half of a turn of
`iappend`. -/
def appendBlock (ip : Inode) (fbn : Nat) : Prog Image (UInt32 × Inode) :=
  if h : fbn < ndirect then do
    let ip ← fillSlot ip ⟨fbn, direct_lt h⟩
    return (ip.addrs ⟨fbn, direct_lt h⟩, ip)
  else do
    let ip ← fillSlot ip 12
    let indirect ← rsect (ip.addrs 12).toNat
    if indirect.word (fbn - ndirect) = 0 then do
      let x ← takeBlock
      wsect (ip.addrs 12).toNat (indirect.setWord (fbn - ndirect) x)
      record (.data (ip.addrs 12).toNat)
      return (x, ip)
    else return (indirect.word (fbn - ndirect), ip)

/-- The loop of `iappend`. -/
def iappendLoop (ip : Inode) : List (Nat × Nat) → List UInt8 → Prog Image Inode
  | [], _ => return ip
  | (off, m) :: ps, p =>
      if off / bsize < maxfile then do
        let (x, ip) ← appendBlock ip (off / bsize)
        let buf ← rsect x.toNat
        wsect x.toNat (buf.store (off % bsize) (p.take m))
        record (.data x.toNat)
        iappendLoop ip ps (p.drop m)
      else halt "fbn < MAXFILE"

/-- `iappend` -/
def iappend (inum : Nat) (p : List UInt8) : Prog Image Unit := do
  let din ← rinode inum
  let ip ← iappendLoop { din with inum := inum } (pieces p.length din.size.toNat p.length) p
  winode inum { ip.toDinode with size := UInt32.ofNat (din.size.toNat + p.length) }

/-- The 16 bytes of an entry. -/
def hostDirent (inum : Nat) (name : List UInt8) : List UInt8 :=
  Dirent.encode { inum := UInt16.ofNat inum, name := name }

/-- The end of `add_dir`: "fix size of inode cur_dir". -/
def fixSize (inum : Nat) : Prog Image Unit := do
  let din ← rinode inum
  winode inum { din with size := UInt32.ofNat ((din.size.toNat / bsize + 1) * bsize) }

/-- The loop of `add_dir` over the entries of directory `cur`; for a directory, the call of `add_dir`
is the part between `hostIalloc` and the `iappend` of its entry. -/
def addEntries (cur : Nat) : Entries → Prog Image Unit
  | .nil => return ()
  | .file name chunks rest => do
      let child ← hostIalloc tFile
      each (fun chunk => iappend child chunk) chunks
      iappend cur (hostDirent child name)
      addEntries cur rest
  | .dir name sub rest => do
      let child ← hostIalloc tDir
      iappend child (hostDirent child [46])
      iappend child (hostDirent cur [46, 46])
      addEntries child sub
      fixSize child
      iappend cur (hostDirent child name)
      addEntries cur rest

/-- `add_dir` -/
def addDir (cur parent : Nat) (entries : Entries) : Prog Image Unit := do
  iappend cur (hostDirent cur [46])
  iappend cur (hostDirent parent [46, 46])
  addEntries cur entries
  fixSize cur

/-- `balloc` of `mkfs.c`: the bits of the first `used` blocks are set. -/
def hostBalloc (used : Nat) : Prog Image Unit :=
  if used < 512 * 8 then
    wsect (200 / ipb + 3) ((List.range used).foldl (fun buf i => buf.setBit i) fun _ => 0)
  else halt "used < 512*8"

/-- `main`, from the empty image file on. -/
def mkfsMain (root : Entries) : Prog Image Unit := do
  mkfs 995 200 1024
  let rootInode ← hostIalloc tDir
  if rootInode ≠ 1 then halt "root_inode == ROOTINO"
  else do
    addDir rootInode rootInode root
    let used ← look fun s => s.usedblocks
    hostBalloc used

end Xv6
end LfsXv6
