import LfsXv6.Xv6.Fs

/-!
# Icache — in-core inodes, directories and path names of `fs.c`

The table of in-core inodes and the upper two layers of `fs.c`.  A `struct inode *` is the number of a
slot of the table.  The lower layers get the inode of a slot and their result is put back.
-/

namespace LfsXv6
namespace Xv6

open Lib Prog

/-- `NINODE` -/
abbrev ninode : Nat := 50

/-- `ROOTINO` -/
abbrev rootino : Nat := 1

/-- A slot of `icache.inode`. -/
abbrev Slot := Fin ninode

/-- A `struct inode`: its reference count, `I_BUSY` and `I_VALID`, and the inode. -/
structure Cached where
  ref : Int
  busy : Bool
  valid : Bool
  node : Inode

structure Kernel where
  bufs : Bufs
  icache : Slot → Cached

/-- Run a function of the lower layers. -/
def onDisk {α : Type} (x : Prog Bufs α) : Prog Kernel α := fun s =>
  match x s.bufs with
  | .ok (a, bufs) => .ok (a, { s with bufs := bufs })
  | .error e => .error e

/-- Change a slot of the table. -/
def setSlot (i : Slot) (f : Cached → Cached) : Prog Kernel Unit :=
  assign fun s => { s with icache := Function.update s.icache i (f (s.icache i)) }

/-- Run a function of the lower layers on the inode of a slot. -/
def withNode {α : Type} (i : Slot) (f : Inode → Prog Bufs (α × Inode)) : Prog Kernel α := do
  let c ← look fun s => s.icache i
  let (a, node) ← onDisk (f c.node)
  setSlot i fun c => { c with node := node }
  return a

/-! ## References and locks -/

/-- `iget` -/
def iget (inum : Nat) : Prog Kernel Slot := do
  let icache ← look fun s => s.icache
  match (List.finRange ninode).find? fun i => 0 < (icache i).ref ∧ (icache i).node.inum = inum with
  | some i => do
      setSlot i fun c => { c with ref := c.ref + 1 }
      return i
  | none =>
      match (List.finRange ninode).find? fun i => (icache i).ref = 0 with
      | none => halt "iget: no inodes"
      | some i => do
          setSlot i fun c =>
            { ref := 1, busy := false, valid := false, node := { c.node with inum := inum } }
          return i

/-- `idup` -/
def idup (i : Slot) : Prog Kernel Slot := do
  setSlot i fun c => { c with ref := c.ref + 1 }
  return i

/-- A lock of one's own is waited for in vain. -/
def block {α : Type} : Prog Kernel α := fun _ => .error .sleep

/-- `ilock` -/
def ilock (i : Slot) : Prog Kernel Unit := do
  let c ← look fun s => s.icache i
  if c.ref < 1 then halt "ilock"
  else if c.busy then block
  else do
    setSlot i fun c => { c with busy := true }
    if c.valid then return ()
    else do
      let node ← onDisk (iload c.node.inum)
      setSlot i fun c => { c with node := node, valid := true }
      if node.type = 0 then halt "ilock: no type" else return ()

/-- `iunlock` -/
def iunlock (i : Slot) : Prog Kernel Unit := do
  let c ← look fun s => s.icache i
  if c.busy = false ∨ c.ref < 1 then halt "iunlock"
  else setSlot i fun c => { c with busy := false }

/-- The part of `iput` that truncates and frees an inode that is no longer used. -/
def ifree (i : Slot) : Prog Kernel Unit := do
  setSlot i fun c => { c with busy := true }
  withNode i fun ip => do
    let ip ← itrunc ip
    let ip := { ip with type := 0 }
    iupdate ip
    return ((), ip)
  setSlot i fun c => { c with busy := false, valid := false }

/-- The first part of `iput`: the last reference to an inode without links frees it. -/
def iputLast (i : Slot) : Prog Kernel Unit := do
  let c ← look fun s => s.icache i
  if c.ref = 1 ∧ c.valid ∧ c.node.nlink = 0 then
    if c.busy then halt "iput busy" else ifree i
  else return ()

/-- `iput` -/
def iput (i : Slot) : Prog Kernel Unit := do
  iputLast i
  setSlot i fun c => { c with ref := c.ref - 1 }

/-- `iunlockput` -/
def iunlockput (i : Slot) : Prog Kernel Unit := do
  iunlock i
  iput i

/-! ## Directories -/

/-- `strncmp`, on the bytes of two strings before their ends -/
def strncmp : Nat → List UInt8 → List UInt8 → Int
  | 0, _, _ => 0
  | n + 1, p, q =>
      if p.headD 0 ≠ 0 ∧ p.headD 0 = q.headD 0 then strncmp n p.tail q.tail
      else (p.headD 0).toNat - (q.headD 0).toNat

/-- `namecmp` -/
def namecmp (s t : List UInt8) : Int := strncmp 14 s t

/-- The entry of a directory block that `dirlookup` stops at. -/
def Sector.findEntry (d : Sector) (name : List UInt8) : Option Nat :=
  (List.range 32).find? fun k => (d.dirent k).inum ≠ 0 ∧ namecmp name (d.dirent k).name = 0

/-- The loop of `dirlookup` over the blocks of a directory: number and offset of the entry. -/
def dirlookupLoop (name : List UInt8) (ip : Inode) :
    List Nat → Prog Bufs (Option (UInt16 × Nat) × Inode)
  | [] => return (none, ip)
  | bn :: bns => do
      let (addr, ip) ← bmap ip bn
      let data ← bread addr.toNat
      match data.findEntry name with
      | some k => do
          brelse addr.toNat
          return (some ((data.dirent k).inum, bn * bsize + 16 * k), ip)
      | none => do
          brelse addr.toNat
          dirlookupLoop name ip bns

/-- `dirlookup`: the slot, and `*poff` -/
def dirlookup (dp : Slot) (name : List UInt8) : Prog Kernel (Option (Slot × Nat)) := do
  let c ← look fun s => s.icache dp
  if c.node.type ≠ tDir then halt "dirlookup not DIR"
  else do
    let found ← withNode dp fun ip =>
      dirlookupLoop name ip (List.range ((ip.size.toNat + (bsize - 1)) / bsize))
    match found with
    | none => return none
    | some (inum, off) => do
        let ip ← iget inum.toNat
        return some (ip, off)

/-- The loop of `dirlink` that looks for an empty entry; it ends at the first offset past the end. -/
def dirlinkLoop (dev : Devsw) (ip : Inode) (stop : Nat) : List Nat → Prog Bufs (Nat × Inode)
  | [] => return (stop, ip)
  | off :: offs => do
      let ((ret, de), ip) ← readi dev ip (UInt32.ofNat off) 16
      if ret ≠ 16 then halt "dirlink read"
      else if (Dirent.decode fun o => de.getD o 0).inum = 0 then return (off, ip)
      else dirlinkLoop dev ip stop offs

/-- `dirlink`: 0 or -1 -/
def dirlink (dev : Devsw) (dp : Slot) (name : List UInt8) (inum : Nat) : Prog Kernel Int32 := do
  match ← dirlookup dp name with
  | some (ip, _) => do
      iput ip
      return -1
  | none => do
      withNode dp fun ip => do
        let entries := (ip.size.toNat + 15) / 16
        let (off, ip) ← dirlinkLoop dev ip (16 * entries) ((List.range entries).map (16 * ·))
        let de : Dirent := { inum := UInt16.ofNat inum, name := name }
        let (ret, ip) ← writei dev ip de.encode (UInt32.ofNat off) 16
        if ret ≠ 16 then halt "dirlink" else return ((), ip)
      return 0

/-! ## Paths -/

/-- `'/'` -/
abbrev slash : UInt8 := 47

/-- `skipelem`: the next element of a path, cut to `DIRSIZ` bytes, and what follows it. -/
def skipelem (path : List UInt8) : Option (List UInt8 × List UInt8) :=
  let path := path.dropWhile (· == slash)
  if path = [] then none
  else
    let elem := path.takeWhile (· != slash)
    some (elem.take 14, (path.drop elem.length).dropWhile (· == slash))

/-- The names that a loop over `skipelem` produces; a path of `n` bytes has at most `n` of them. -/
def elems : Nat → List UInt8 → List (List UInt8)
  | 0, _ => []
  | n + 1, path =>
      match skipelem path with
      | none => []
      | some (name, rest) => name :: elems n rest

/-- The loop of `namex` over the elements of the path. -/
def namexLoop (nameiparent : Bool) (ip : Slot) : List (List UInt8) → Prog Kernel (Option (Slot × List UInt8))
  | [] =>
      if nameiparent then do
        iput ip
        return none
      else return some (ip, [])
  | name :: names => do
      ilock ip
      let c ← look fun s => s.icache ip
      if c.node.type ≠ tDir then do
        iunlockput ip
        return none
      else if nameiparent ∧ names = [] then do
        -- stop one level early
        iunlock ip
        return some (ip, name)
      else
        match ← dirlookup ip name with
        | none => do
            iunlockput ip
            return none
        | some (next, _) => do
            iunlockput ip
            namexLoop nameiparent next names

/-- Where `namex` starts: at the root, or at `proc->cwd`. -/
def namexStart (cwd : Slot) (path : List UInt8) : Prog Kernel Slot :=
  if path.head? = some slash then iget rootino else idup cwd

/-- `namex`: the slot, and the last element when the parent was asked for.  `cwd` is `proc->cwd`. -/
def namex (cwd : Slot) (path : List UInt8) (nameiparent : Bool) :
    Prog Kernel (Option (Slot × List UInt8)) := do
  let ip ← namexStart cwd path
  namexLoop nameiparent ip (elems path.length path)

end Xv6
end LfsXv6
