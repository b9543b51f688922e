import LfsXv6.Linux.Layout

/-!
# Lfs — the log-structured file server of `lfs.c`

The globals `imap`, `next_block` and `fd` are the fields of `Server`; every function of `lfs.c` takes
the server and returns it.  Memory that the C code reads before initialising it (stack variables,
bytes after a string terminator, the bytes past a structure that is written with a larger size) is
an argument: the functions take it from a `Stack`, one field per uninitialised object.

`int` is `Int32`, so products such as `next_block*BLOCKSIZE` wrap as on the machine.
-/

namespace LfsXv6
namespace Linux

open Lib

/-! ## State -/

/-- The globals of `lfs.c`.  `imap` is only ever initialised on `[0, MAXINODES)`; cells outside the
array read as `-1`. -/
structure Server where
  imap : Int32 → Int32
  nextBlock : Int32
  file : File

/-- What the server sends back: the fields of `MFS_Packet_t` that a client looks at. -/
structure Response where
  inum : Int32
  stat : Stat
  buffer : Block

/-- Uninitialised memory met while one request is executed. -/
structure Stack where
  pinode : Inode
  lookupDirect : Directory
  node : Inode
  pnode : Inode
  dirEnt : DirEnt
  direct : Directory
  tempDir : Directory
  parent : Inode
  /-- stack bytes behind `parent`, which `write(fd, &parent, BLOCKSIZE)` copies to the image -/
  pastParent : Mem
  block : Directory
  /-- `d` of the call of `build_dir_block` that extends the parent at direct pointer `b` -/
  extension : Fin 14 → Directory
  /-- `d` of the call of `build_dir_block` that makes the first block of a new directory -/
  firstBlock : Directory
  /-- the caller's buffer, when a `strcpy` of `read_server` has run over the end of `dirEnt.name` -/
  overrun : Block
  response : Response

/-- A stack of zeroes. -/
instance : Inhabited Stack where
  default :=
    let inode : Inode := ⟨0, 0, 0, fun _ => 0, fun _ => 0⟩
    let directory : Directory := ⟨fun _ => 0, fun _ _ => 0⟩
    { pinode := inode
      lookupDirect := directory
      node := inode
      pnode := inode
      dirEnt := ⟨fun _ => 0, 0⟩
      direct := directory
      tempDir := directory
      parent := inode
      pastParent := fun _ => 0
      block := directory
      extension := fun _ => directory
      firstBlock := directory
      overrun := blockOf fun _ => 0
      response := ⟨0, ⟨0, 0⟩, blockOf fun _ => 0⟩ }

/-- `x*BLOCKSIZE`, computed in `int` and then converted to `off_t` -/
def blockOff (x : Int32) : Int := (x * 4096).toInt

/-- The bytes of one `int` variable. -/
def intMem (x : Int32) : Mem := fun k => intByte x k

/-- `read(fd, &node, sizeof(inode))` -/
def readInode (f : File) (node : Inode) : Inode × File :=
  let (m, f) := f.read node.encode inodeSize
  (Inode.decode m, f)

/-- `read(fd, &direct, BLOCKSIZE)` -/
def readDirectory (f : File) (direct : Directory) : Directory × File :=
  let (m, f) := f.read direct.encode blockSize
  (Directory.decode m, f)

/-! ## `update_CR`, `find_inode`, `build_dir_block` -/

/-- `update_CR` -/
def updateCR (s : Server) (inum : Int32) : Server :=
  let f :=
    if inum ≠ -1 then (s.file.lseek (inum.toInt * 4)).write (intMem (s.imap inum)) 4 else s.file
  { s with file := (f.lseek 16384).write (intMem s.nextBlock) 4 }

/-- `find_inode`: return code, the contents of `*node`, and the server with its descriptor moved.
`imap[inum]` is not tested for `-1`: the seek then fails and the read starts where the descriptor
stands. -/
def findInode (s : Server) (inum : Int32) (node : Inode) : Int32 × Inode × Server :=
  if inum < 0 ∨ inum ≥ 4096 then (-1, node, s)
  else
    let (node, f) := readInode (s.file.lseek (blockOff (s.imap inum))) node
    (0, node, { s with file := f })

/-- The directory block that `build_dir_block` fills in before writing it. -/
def newDirBlock (first : Bool) (inum pinum : Int32) (d : Directory) : Directory :=
  let d : Directory :=
    { inums := fun _ => -1, names := fun i => strcpy (d.names i) Name.dne.bytes }
  if first then (d.setEntry 0 inum Name.dot).setEntry 1 pinum Name.dotdot else d

/-- `build_dir_block` -/
def buildDirBlock (s : Server) (first : Bool) (inum pinum : Int32) (d : Directory) :
    Int32 × Server :=
  let f := (s.file.lseek (blockOff s.nextBlock)).write (newDirBlock first inum pinum d).encode blockSize
  let s := { s with file := f, nextBlock := s.nextBlock + 1 }
  (s.nextBlock - 1, s)

/-! ## `start_server` -/

/-- The bytes of the whole `imap` array. -/
def imapMem (imap : Int32 → Int32) : Mem :=
  fun o => intByte (imap (Int32.ofNat (o / 4))) (o % 4)

/-- The root inode that `start_server` writes. -/
def rootInode (block : Int32) : Inode where
  size := 4096
  type := mfsDirectory
  inum := 0
  dpointers := fun k => if k = 0 then block else -1
  dpUsed := fun k => if k = 0 then 1 else 0

/-- The first block of the root directory; unlike `build_dir_block`, `start_server` does not store
`"DNE"` in the first two names before overwriting them. -/
def baseBlock (d : Directory) : Directory where
  inums := fun i => if i.val < 2 then 0 else -1
  names := fun i =>
    strcpy (d.names i)
      (if i = 0 then Name.dot.bytes else if i = 1 then Name.dotdot.bytes else Name.dne.bytes)

/-- `start_server` when the image does not exist: format it.  `stack` is the uninitialised
`base_block`. -/
def format (stack : Directory) : Server :=
  let s : Server := { imap := fun _ => -1, nextBlock := 6, file := File.empty }
  let f := (s.file.lseek 0).write (imapMem s.imap) 16384
  let f := f.write (intMem s.nextBlock) 4
  let s := { s with file := f }
  let root := rootInode s.nextBlock
  let base := baseBlock stack
  -- write the base block
  let f := (s.file.lseek (blockOff s.nextBlock)).write base.encode blockSize
  let s := { s with file := f, nextBlock := s.nextBlock + 1 }
  let s := { s with imap := Function.update s.imap 0 s.nextBlock }
  -- write inode
  let f := (s.file.lseek (blockOff s.nextBlock)).write root.encode inodeSize
  let s := { s with file := f, nextBlock := s.nextBlock + 1 }
  updateCR s 0

/-- `start_server` on an existing image: load `imap` and `next_block`.  `imap` and `nextBlock` are
the zero-initialised globals of the new process; the descriptor starts at offset 0. -/
def reload (f : File) : Server :=
  let (m, f) := (f.lseek 0).read (fun _ => 0) 16384
  let (n, f) := f.read (fun _ => 0) 4
  { imap := fun i => if 0 ≤ i ∧ i < 4096 then getInt m (4 * i.toNatClampNeg) else -1
    nextBlock := getInt n 0
    file := f }

/-! ## `lookup_server`, `stat_server` -/

/-- The loop of `lookup_server` over the direct pointers of `*pinode`. -/
def lookupLoop (pinode : Inode) (name : Name) : List (Fin 14) → Directory → Server → Int32 × Server
  | [], _, s => (-1, s)
  | i :: is, direct, s =>
      if pinode.dpUsed i = 1 then
        let (direct, f) := readDirectory (s.file.lseek (blockOff (pinode.dpointers i))) direct
        let s := { s with file := f }
        match direct.findName name with
        | some j => (direct.inums j, s)
        | none => lookupLoop pinode name is direct s
      else
        lookupLoop pinode name is direct s

/-- `lookup_server` -/
def lookupServer (s : Server) (pinum : Int32) (name : Name) (st : Stack) : Int32 × Server :=
  let (rc, pinode, s) := findInode s pinum st.pinode
  if rc ≠ 0 then (-1, s)
  else lookupLoop pinode name (List.finRange 14) st.lookupDirect s

/-- `stat_server`: return code and the contents of `*m` -/
def statServer (s : Server) (inum : Int32) (m : Stat) (st : Stack) : Int32 × Stat × Server :=
  let (rc, node, s) := findInode s inum st.node
  if rc = -1 then (-1, m, s)
  else (0, { type := node.type, size := node.size }, s)

/-! ## `creat_server` -/

/-- The search for the lowest free inode number; `-1` when `imap` is full. -/
@[irreducible] def freeInum (imap : Int32 → Int32) : Int32 :=
  ((List.range maxInodes).find? fun i => imap (Int32.ofNat i) = -1).elim (-1) Int32.ofNat

/-- The inode of a file just created. -/
def newInode (inum type : Int32) : Inode where
  size := 0
  type := type
  inum := inum
  dpointers := fun _ => -1
  dpUsed := fun _ => 0

/-- The bytes `write(fd, &parent, BLOCKSIZE)` copies: the inode, then what lies behind it. -/
def parentMem (parent : Inode) (past : Mem) : Mem :=
  fun o => if o < inodeSize then parent.encode o else past o

/-- The end of `creat_server`, once the entry is stored: the type is looked at only here. -/
def creatNode (pinum type inum : Int32) (st : Stack) (s : Server) : Int32 × Server :=
  let n := newInode inum type
  let (n, s) :=
    if type = mfsDirectory then
      let n := { n with
        dpUsed := Function.update n.dpUsed 0 1
        dpointers := Function.update n.dpointers 0 s.nextBlock
        size := n.size + 4096 }
      (n, (buildDirBlock s true inum pinum st.firstBlock).2)
    else (n, s)
  if type ≠ mfsDirectory ∧ type ≠ mfsRegularFile then (-1, s)
  else
    let s := { s with imap := Function.update s.imap inum s.nextBlock }
    let f := (s.file.lseek (blockOff s.nextBlock)).write n.encode inodeSize
    let s := { s with file := f, nextBlock := s.nextBlock + 1 }
    (0, updateCR s inum)

/-- The part of `creat_server` that runs once a slot `e` was found in direct block `b`. -/
def creatAt (pinum type : Int32) (name : Name) (inum : Int32) (st : Stack) (b : Fin 14) (e : Fin 128)
    (parent : Inode) (block : Directory) (s : Server) : Int32 × Server :=
  let f := (s.file.lseek (blockOff (s.imap pinum))).write (parentMem parent st.pastParent) blockSize
  let block := block.setEntry e inum name
  let f := (f.lseek (blockOff (parent.dpointers b))).write block.encode blockSize
  creatNode pinum type inum st { s with file := f }

/-- The `else` branch of the loop of `creat_server`: give the parent a new directory block at `b`. -/
def extendParent (inum : Int32) (st : Stack) (b : Fin 14) (parent : Inode) (s : Server) :
    Inode × Server :=
  let (bl, s) := buildDirBlock s false inum (-1) (st.extension b)
  ({ parent with
      size := parent.size + 4096
      dpUsed := Function.update parent.dpUsed b 1
      dpointers := Function.update parent.dpointers b bl }, s)

/-- The loop of `creat_server` over the direct pointers of `parent`.  After an extension the source
steps `b` back, so the same `b` is visited again, now as a used block. -/
def creatLoop (pinum type : Int32) (name : Name) (inum : Int32) (st : Stack) :
    List (Fin 14) → Inode → Directory → Server → Int32 × Server
  | [], _, _, s => (-1, s)
  | b :: bs, parent, block, s =>
      let (parent, s) := if parent.dpUsed b ≠ 0 then (parent, s) else extendParent inum st b parent s
      let (block, f) := readDirectory (s.file.lseek (blockOff (parent.dpointers b))) block
      let s := { s with file := f }
      match block.findFree with
      | some e => creatAt pinum type name inum st b e parent block s
      | none => creatLoop pinum type name inum st bs parent block s

/-- `creat_server` -/
def creatServer (s : Server) (pinum type : Int32) (name : Name) (st : Stack) : Int32 × Server :=
  let (rc, parent, s) := findInode s pinum st.parent
  if rc = -1 then (-1, s)
  else if parent.type ≠ mfsDirectory then (-1, s)
  else
    let (found, s) := lookupServer s pinum name st
    if found ≠ -1 then (0, s)
    else
      let inum := freeInum s.imap
      if inum = -1 then (-1, s)
      else creatLoop pinum type name inum st (List.finRange 14) parent st.block s

/-! ## `write_server`, `read_server` -/

/-- The inode after block `block` was written to `addr`. -/
def Inode.withBlock (node : Inode) (block : Fin 14) (addr : Int32) : Inode :=
  let node := { node with dpointers := Function.update node.dpointers block addr }
  let node :=
    if node.dpUsed block = 0 then { node with dpUsed := Function.update node.dpUsed block 1 } else node
  if (Int32.ofNat block + 1) * 4096 > node.size then
    { node with size := (Int32.ofNat block + 1) * 4096 }
  else node

/-- A block number that passes `block < 0 || block > 13`. -/
def blockIndex (block : Int32) : Option (Fin 14) :=
  if h : block < 0 ∨ block > 13 then none
  else some ⟨block.toNatClampNeg, by
    have h13 : block ≤ 13 := Int32.not_lt.mp fun hgt => h (Or.inr hgt)
    exact Nat.lt_of_le_of_lt (Int32.toNatClampNeg_le h13) (by decide)⟩

/-- `write_server` -/
def writeServer (s : Server) (inum : Int32) (buffer : Block) (block : Int32) (st : Stack) :
    Int32 × Server :=
  let (rc, node, s) := findInode s inum st.node
  if rc ≠ 0 then (-1, s)
  else if node.type ≠ mfsRegularFile then (-1, s)
  else
    match blockIndex block with
    | none => (-1, s)
    | some k =>
        -- write buffer
        let f := (s.file.lseek (blockOff s.nextBlock)).write buffer.mem blockSize
        let node := node.withBlock k s.nextBlock
        -- write the inode data
        let f := (f.lseek (blockOff (s.imap inum))).write node.encode inodeSize
        let s := { s with file := f, nextBlock := s.nextBlock + 1 }
        (0, updateCR s inum)

/-- The loop of `read_server` that looks for the entry of `inum` in a directory block.  A name that fills its
field has no terminator: `strcpy` copies on over the end of `dirEnt.name`, and `dirEnt` is lost (`none`). -/
@[irreducible] def dirEntOf (inum : Int32) (direct : Directory) (dirEnt : Option DirEnt) : Option DirEnt :=
  (List.finRange 128).foldl
    (fun ent j =>
      if direct.inums j = inum then
        if (cstr (direct.names j)).length < 28 then
          ent.map fun ent => { name := strcpy ent.name (cstr (direct.names j)), inum := inum }
        else none
      else ent)
    dirEnt

/-- The loop of `read_server` over the direct pointers of `pnode`. -/
def readDirLoop (inum : Int32) (pnode : Inode) :
    List (Fin 14) → Option DirEnt → Directory → Server → Option DirEnt × Server
  | [], dirEnt, _, s => (dirEnt, s)
  | i :: is, dirEnt, direct, s =>
      if pnode.dpUsed i = 1 then
        let (direct, f) := readDirectory (s.file.lseek (blockOff (pnode.dpointers i))) direct
        readDirLoop inum pnode is (dirEntOf inum direct dirEnt) direct { s with file := f }
      else
        readDirLoop inum pnode is dirEnt direct s

/-- The directory branch of `read_server`: `dpointers[1]` is taken for the number of the parent. -/
def readDirEnt (inum : Int32) (node : Inode) (buffer : Block) (st : Stack) (s : Server) :
    Block × Server :=
  let (_, pnode, s) := findInode s (node.dpointers 1) st.pnode
  let (dirEnt, s) := readDirLoop inum pnode (List.finRange 14) (some st.dirEnt) st.direct s
  match dirEnt with
  | some dirEnt => (blockOf fun o => if o < 32 then dirEnt.encode o else buffer.mem o, s)
  | none => (st.overrun, s)

/-- `read_server`: return code and the contents of `buffer` -/
def readServer (s : Server) (inum : Int32) (buffer : Block) (block : Int32) (st : Stack) :
    Int32 × Block × Server :=
  let (rc, node, s) := findInode s inum st.node
  if rc ≠ 0 then (-1, buffer, s)
  else
    match blockIndex block with
    | none => (-1, buffer, s)
    | some k =>
        if node.type = mfsRegularFile then
          let (m, f) := (s.file.lseek (blockOff (node.dpointers k))).read buffer.mem blockSize
          (0, blockOf m, { s with file := f })
        else
          (0, readDirEnt inum node buffer st s)

/-! ## `unlink_server` -/

/-- Clear an entry: `strcpy(names[j], "DNE"); inums[j] = -1`. -/
def Directory.clearEntry (d : Directory) (j : Fin 128) : Directory :=
  d.setEntry j (-1) Name.dne

/-- The emptiness test of `unlink_server`: a live entry among slots `2..127` of the first block. -/
@[irreducible] def Directory.occupied (d : Directory) : Bool :=
  (List.finRange 128).any fun i => decide (2 ≤ i.val ∧ d.inums i ≠ -1)

/-- The loop of `unlink_server`; `false` when it left the function with `-1`. -/
def unlinkLoop (pinode node : Inode) (name : Name) (tempDir : Directory) :
    List (Fin 128) → Directory → Server → Bool × Server
  | [], _, s => (true, s)
  | j :: js, direct, s =>
      if cstr (direct.names j) = name.bytes then
        let (refused, s) :=
          if node.type = mfsRegularFile then (false, s)
          else
            let (tempDir, f) := readDirectory (s.file.lseek (blockOff (node.dpointers 0))) tempDir
            (tempDir.occupied, { s with file := f })
        if refused then (false, s)
        else
          let direct := direct.clearEntry j
          let f := (s.file.lseek (blockOff (pinode.dpointers 0))).write direct.encode blockSize
          unlinkLoop pinode node name tempDir js direct { s with file := f }
      else
        unlinkLoop pinode node name tempDir js direct s

/-- The part of `unlink_server` that runs once the name was found under the number `inum`. -/
def unlinkChild (pinode : Inode) (direct : Directory) (name : Name) (inum : Int32) (st : Stack)
    (s : Server) : Int32 × Server :=
  let (_, node, s) := findInode s inum st.node
  let (done, s) := unlinkLoop pinode node name st.tempDir (List.finRange 128) direct s
  if done = false then (-1, s)
  else
    let s := { s with imap := Function.update s.imap inum (-1) }
    (0, updateCR s inum)

/-- `unlink_server` -/
def unlinkServer (s : Server) (pinum : Int32) (name : Name) (st : Stack) : Int32 × Server :=
  let (rc, pinode, s) := findInode s pinum st.pinode
  if rc ≠ 0 then (-1, s)
  else if pinode.type ≠ mfsDirectory then (-1, s)
  else
    let (direct, f) := readDirectory (s.file.lseek (blockOff (pinode.dpointers 0))) st.direct
    let (inum, s) := lookupServer { s with file := f } pinum name st
    if inum < 0 then (0, s) else unlinkChild pinode direct name inum st s

end Linux
end LfsXv6
