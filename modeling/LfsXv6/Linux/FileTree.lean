import LfsXv6.Lib.SlotTable
import LfsXv6.Linux.ListenServer

/-!
# FileTree — what the file server is for

The abstract file system: inode numbers map to files and directories, with no image, no block
addresses and no descriptor.  A directory is a table of slots (`Lib.SlotTable`) whose marker is the
name `"DNE"`.  The operations are stated for requests whose inode number is out of range or allocated;
they keep the server's own decisions (creation before the type check, `unlink` acting on the first
128 slots only), so that the server of `Lfs` can be compared with them step by step.
-/

namespace LfsXv6
namespace Linux

open Lib

/-- A directory slot: a name and an inode number, or free. -/
abbrev DirSlot := Slot (List UInt8) Int32

/-- The name stored in a free slot. -/
abbrev marker : List UInt8 := Name.dne.bytes

inductive Node where
  | file (size : Int32) (blocks : Fin 14 → Option Block)
  | dir (slots : List DirSlot)

/-- A file system: the allocated inode numbers and what they are. -/
abbrev Fs := Int32 → Option Node

/-! ## Files -/

/-- Size of a file of size `size` once block `k` is written. -/
def grow (size : Int32) (k : Fin 14) : Int32 :=
  if (Int32.ofNat k + 1) * 4096 > size then (Int32.ofNat k + 1) * 4096 else size

/-- A lookup in a regular file reads its blocks as directory blocks. -/
def lookupBlocks (blocks : Fin 14 → Option Block) (name : Name) : Int32 :=
  ((List.finRange 14).findSome? fun k =>
    (blocks k).bind fun b =>
      ((Directory.decode b.mem).findName name).map (Directory.decode b.mem).inums).getD (-1)

/-! ## Directories -/

/-- The value `lookup_server` returns for a directory. -/
def lookupSlots (slots : List DirSlot) (name : Name) : Int32 :=
  (SlotTable.lookup marker slots name.bytes).getD (-1)

/-- A directory with a new entry: in the first free slot, or in a new block while there are fewer
than 14. -/
def addEntry (slots : List DirSlot) (name : Name) (inum : Int32) : Option (List DirSlot) :=
  match SlotTable.insert (name.bytes, inum) slots with
  | some slots => some slots
  | none =>
      if slots.length < 14 * 128 then
        some (slots ++ some (name.bytes, inum) :: List.replicate 127 none)
      else none

/-- A directory block with nothing but the two dot entries. -/
def newDir (inum pinum : Int32) : List DirSlot :=
  some (Name.dot.bytes, inum) :: some (Name.dotdot.bytes, pinum) :: List.replicate 126 none

/-- The emptiness test of `unlink_server`: it sees slots `2..127` only. -/
def looksEmpty (slots : List DirSlot) : Bool :=
  ((slots.take 128).drop 2).all Option.isNone

/-- Free the slots of that name in the first block. -/
def clearFirst (slots : List DirSlot) (name : Name) : List DirSlot :=
  SlotTable.clear marker name.bytes (slots.take 128) ++ slots.drop 128

/-- Whether the first block has a slot of that name. -/
def inFirst (slots : List DirSlot) (name : Name) : Bool :=
  (slots.take 128).any fun sl => SlotTable.label marker sl = name.bytes

namespace Fs

/-- The file system of a fresh image. -/
def init : Fs := fun i => if i = 0 then some (.dir (newDir 0 0)) else none

/-- The lowest free inode number; `-1` when there is none. -/
@[irreducible] def freeInum (fs : Fs) : Int32 :=
  ((List.range maxInodes).find? fun i => (fs (Int32.ofNat i)).isNone).elim (-1) Int32.ofNat

def lookup (fs : Fs) (pinum : Int32) (name : Name) : Int32 :=
  match fs pinum with
  | none => -1
  | some (.file _ blocks) => lookupBlocks blocks name
  | some (.dir slots) => lookupSlots slots name

def stat (fs : Fs) (inum : Int32) : Option Stat :=
  match fs inum with
  | none => none
  | some (.file size _) => some { type := mfsRegularFile, size := size }
  | some (.dir slots) => some { type := mfsDirectory, size := Int32.ofNat (32 * slots.length) }

/-- The contents of a block that was written. -/
def read (fs : Fs) (inum : Int32) (block : Int32) : Option Block :=
  match fs inum with
  | some (.file _ blocks) => (blockIndex block).bind blocks
  | _ => none

def write (fs : Fs) (inum : Int32) (buffer : Block) (block : Int32) : Int32 × Fs :=
  match fs inum, blockIndex block with
  | some (.file size blocks), some k =>
      (0, Function.update fs inum
        (some (.file (grow size k) (Function.update blocks k (some buffer)))))
  | _, _ => (-1, fs)

/-- What a successful creation adds for the new inode number. -/
def newNode (type inum pinum : Int32) : Node :=
  if type = mfsDirectory then .dir (newDir inum pinum) else .file 0 fun _ => none

def creat (fs : Fs) (pinum type : Int32) (name : Name) : Int32 × Fs :=
  match fs pinum with
  | some (.dir slots) =>
      if lookupSlots slots name ≠ -1 then (0, fs)
      else if fs.freeInum = -1 then (-1, fs)
      else
        match addEntry slots name fs.freeInum with
        | none => (-1, fs)
        | some slots =>
            let fs' : Fs := Function.update fs pinum (some (.dir slots))
            if type ≠ mfsDirectory ∧ type ≠ mfsRegularFile then (-1, fs')
            else (0, Function.update fs' fs.freeInum (some (newNode type fs.freeInum pinum)))
  | _ => (-1, fs)

/-- The inode `unlink_server` takes for the child: for a child that is not allocated the read starts
behind the first directory block, where the directory's own inode lies. -/
def child (fs : Fs) (slots : List DirSlot) (inum : Int32) : Node :=
  (fs inum).getD (.dir slots)

/-- Whether `unlink_server` turns the removal down. -/
def refuses : Node → Bool
  | .file _ _ => false
  | .dir slots => !looksEmpty slots

def unlink (fs : Fs) (pinum : Int32) (name : Name) : Int32 × Fs :=
  match fs pinum with
  | some (.dir slots) =>
      match SlotTable.lookup marker slots name.bytes with
      | none => (0, fs)
      | some i =>
          if inFirst slots name then
            if refuses (fs.child slots i) then (-1, fs)
            else
              (0, Function.update (Function.update fs pinum (some (.dir (clearFirst slots name))))
                i none)
          else (0, Function.update fs i none)
  | _ => (-1, fs)

/-- The return value and the file system after a request. -/
def exec (fs : Fs) : Request → Int32 × Fs
  | .lookup pinum name => (fs.lookup pinum name, fs)
  | .stat inum => (if (fs inum).isSome then 0 else -1, fs)
  | .write inum buffer block => fs.write inum buffer block
  | .read inum block =>
      (if (fs inum).isSome ∧ (blockIndex block).isSome then 0 else -1, fs)
  | .creat pinum type name => fs.creat pinum type name
  | .unlink pinum name => fs.unlink pinum name

/-- How many blocks a request takes from the end of the log. -/
def cost (fs : Fs) : Request → Nat
  | .write inum buffer block => if (fs.write inum buffer block).1 = 0 then 1 else 0
  | .creat pinum type name =>
      match fs pinum with
      | some (.dir slots) =>
          if lookupSlots slots name ≠ -1 ∨ fs.freeInum = -1 ∨
              (addEntry slots name fs.freeInum).isNone then 0
          else
            (if none ∈ slots then 0 else 1) +
              (if type = mfsDirectory then 2 else if type = mfsRegularFile then 1 else 0)
      | _ => 0
  | _ => 0

/-- The file system after a list of requests. -/
def execs (fs : Fs) (rs : List Request) : Fs := rs.foldl (fun fs r => (fs.exec r).2) fs

/-- Every request of the list is out of range or allocated when its turn comes. -/
def addresses : Fs → List Request → Bool
  | _, [] => true
  | fs, r :: rs => (!decide (InRange r.inum) || (fs r.inum).isSome) && (fs.exec r).2.addresses rs

theorem cost_le_three (fs : Fs) (r : Request) : fs.cost r ≤ 3 := by
  cases r with
  | write inum buffer block =>
      simp only [cost]
      split <;> omega
  | creat pinum type name =>
      simp only [cost]
      split
      · split
        · omega
        · split <;> split <;> (try split) <;> omega
      · omega
  | lookup _ _ => exact Nat.zero_le _
  | stat _ => exact Nat.zero_le _
  | read _ _ => exact Nat.zero_le _
  | unlink _ _ => exact Nat.zero_le _

end Fs

end Linux
end LfsXv6
