import LfsXv6.Linux.Restart
import LfsXv6.Linux.Retransmission

/-!
# Determinism — what a reply may depend on

A reply should depend on the image, `imap` and `next_block` only, not on where the descriptor happens
to stand nor on what the locals `node`, `pnode`, `dirEnt` and `response` held before.  A seek to a
negative offset fails without being noticed, so this is so exactly when no such seek decides what is
read: we describe the requests for which it holds and, for the requests that hand data back, show
that no others qualify.
-/

namespace LfsXv6
namespace Linux

open Lib

/-- The same stack up to the locals `node`, `pnode`, `dirEnt` and `response`, and to what an overrun leaves. -/
structure Stack.Varies (st st' : Stack) : Prop where
  pinode : st'.pinode = st.pinode
  lookupDirect : st'.lookupDirect = st.lookupDirect
  direct : st'.direct = st.direct
  tempDir : st'.tempDir = st.tempDir
  parent : st'.parent = st.parent
  pastParent : st'.pastParent = st.pastParent
  block : st'.block = st.block
  extension : st'.extension = st.extension
  firstBlock : st'.firstBlock = st.firstBlock

/-- The caller and the image see the same, wherever the descriptor stands and whatever the locals
hold. -/
def Request.Determined (s : Server) (r : Request) : Prop :=
  ∀ (p q : Nat) (st st' : Stack), st.Varies st' →
    r.outcome (serve (s.seek p) r st).1 = r.outcome (serve (s.seek q) r st').1 ∧
      Unchanged (serve (s.seek p) r st).2 (serve (s.seek q) r st').2

/-- No read of the request depends on a seek that failed, or else all of it lies in the image. -/
def Request.Settled (s : Server) : Request → Prop
  | .write i _ block => ¬ InRange i ∨ s.Allocated i ∨ blockIndex block = none
  | .read i block =>
      ¬ InRange i ∨ blockIndex block = none ∨
        ∃ k, blockIndex block = some k ∧ s.Allocated i ∧ (s.inode i).type = mfsRegularFile ∧
          ((s.inode i).dpUsed k = 1 ∨ blk (s.imap i) * 4096 + 124 + 4096 ≤ s.file.size)
  | r => r.Addressed s

/-! ## Settled requests -/

section Settled

variable {s : Server} {i p : Int32} {name : Name} {st st' : Stack}

theorem Unchanged.of_eq {u : Server} (h : u = s) : Unchanged s u := by
  subst h
  exact ⟨rfl, rfl, rfl, rfl⟩

theorem Unchanged.seeks (s : Server) (p q : Nat) : Unchanged (s.seek p) (s.seek q) :=
  ⟨rfl, rfl, rfl, rfl⟩

/-- A refusal looks alike to the caller, whatever else is in the response. -/
theorem outcome_refused (r : Request) (receive : Response) :
    r.outcome { receive with inum := -1 } = ⟨-1, none, none⟩ := by
  have hneg : (-1 : Int32) < 0 := by decide
  have hnot : ¬ (-1 : Int32) > -1 := by decide
  cases r <;> simp [Request.outcome, hneg, hnot]

/-- The calls that return a number only. -/
def Request.Plain : Request → Prop
  | .stat _ => False
  | .read _ _ => False
  | _ => True

theorem outcome_plain {r : Request} (h : r.Plain) (receive : Response) :
    r.outcome receive = ⟨receive.inum, none, none⟩ := by
  cases r with
  | stat _ => exact h.elim
  | read _ _ => exact h.elim
  | _ => rfl

theorem lookupServer_varies (h : st.Varies st') :
    lookupServer s p name st' = lookupServer s p name st := by
  unfold lookupServer
  rw [h.pinode, h.lookupDirect]

theorem creatAt_varies (h : st.Varies st') (type inum : Int32) (b : Fin 14) (e : Fin 128)
    (parent : Inode) (block : Directory) :
    creatAt p type name inum st' b e parent block s = creatAt p type name inum st b e parent block s := by
  simp only [creatAt, creatNode, h.pastParent, h.firstBlock]

/-- The loop of `creat_server` does not look at the locals that vary. -/
theorem creatLoop_varies (h : st.Varies st') (type inum : Int32) (bs : List (Fin 14))
    (parent : Inode) (block : Directory) :
    creatLoop p type name inum st' bs parent block s =
      creatLoop p type name inum st bs parent block s := by
  induction bs generalizing parent block s with
  | nil => rfl
  | cons b bs ih =>
      unfold creatLoop
      simp only [ih, creatAt_varies h, extendParent, h.extension]

theorem creatServer_varies (h : st.Varies st') (type : Int32) :
    creatServer s p type name st' = creatServer s p type name st := by
  unfold creatServer
  simp only [creatLoop_varies h, lookupServer_varies h, h.parent, h.block]

theorem WF.writeServer_stack (h : WF s) (ha : s.Allocated i) (buffer : Block) (block : Int32) :
    writeServer s i buffer block st' = writeServer s i buffer block st := by
  unfold writeServer
  rw [h.findInode_eq ha, h.findInode_eq ha]

/-- A write to a block that does not exist is turned down before the type or the inode matter. -/
theorem writeServer_noBlock {block : Int32} (hr : InRange i) (hblock : blockIndex block = none)
    (s : Server) (buffer : Block) (st : Stack) :
    ∃ q, writeServer s i buffer block st = (-1, s.seek q) := by
  obtain ⟨node, q, hfind⟩ := findInode_moves s i st.node
  rw [if_pos hr] at hfind
  refine ⟨q, ?_⟩
  unfold writeServer
  rw [hfind]
  simp [hblock]

theorem readServer_noBlock {block : Int32} (hr : InRange i) (hblock : blockIndex block = none)
    (s : Server) (buffer : Block) (st : Stack) :
    ∃ q, readServer s i buffer block st = (-1, buffer, s.seek q) := by
  obtain ⟨node, q, hfind⟩ := findInode_moves s i st.node
  rw [if_pos hr] at hfind
  refine ⟨q, ?_⟩
  unfold readServer
  rw [hfind]
  simp [hblock]

theorem blockOff_neg_one : blockOff (-1) < 0 := by decide

/-- A block that was never written: the seek fails, and the bytes behind the inode are returned. -/
theorem WF.readServer_hole (h : WF s) (ha : s.Allocated i)
    (hfile : (s.inode i).type = mfsRegularFile) {block : Int32} {k : Fin 14}
    (hblock : blockIndex block = some k) (hk : (s.inode i).dpUsed k ≠ 1) {buffer : Block} {m : Mem}
    {f : File} (hread : (s.file.seekTo (blk (s.imap i) * 4096 + 124)).read buffer.mem blockSize = (m, f))
    (st : Stack) : readServer s i buffer block st = (0, blockOf m, { s with file := f }) := by
  have hptr : (s.inode i).dpointers k = -1 := by
    by_contra hne
    exact hk (((h.node i ha).used_iff k).mpr hne)
  rw [readServer_regular (h.findInode_eq ha st.node) hblock hfile (m := m) (f := f)]
  · rfl
  · rw [hptr, File.lseek_of_neg _ blockOff_neg_one]
    exact hread

/-- A read of a regular file whose 4096 bytes all come from the image. -/
theorem WF.readServer_full (h : WF s) (ha : s.Allocated i)
    (hfile : (s.inode i).type = mfsRegularFile) {block : Int32} {k : Fin 14}
    (hblock : blockIndex block = some k)
    (hk : (s.inode i).dpUsed k = 1 ∨ blk (s.imap i) * 4096 + 124 + 4096 ≤ s.file.size) :
    ∃ b, ∀ buffer st, ∃ q, readServer s i buffer block st = (0, b, s.seek q) := by
  by_cases hused : (s.inode i).dpUsed k = 1
  · exact ⟨_, fun buffer st => h.readServer_file ha hfile hblock hused buffer st⟩
  · have hsize := hk.resolve_left hused
    refine ⟨blockOf fun o => s.file.byte (blk (s.imap i) * 4096 + 124 + o), ?_⟩
    intro buffer st
    refine ⟨blk (s.imap i) * 4096 + 124 + 4096, ?_⟩
    rw [h.readServer_hole ha hfile hblock hused (File.read_full _ (n := blockSize) hsize)]
    have hdata : blockOf (fun o => if o < blockSize then
        (s.file.seekTo (blk (s.imap i) * 4096 + 124)).byte
          ((s.file.seekTo (blk (s.imap i) * 4096 + 124)).pos + o) else buffer.mem o) =
        blockOf fun o => s.file.byte (blk (s.imap i) * 4096 + 124 + o) :=
      blockOf_congr fun o ho => if_pos ho
    rw [hdata]
    rfl

theorem WF.lookup_inRange (h : WF s) (ha : s.Allocated p) (hdir : (s.inode p).type = mfsDirectory)
    (hpos : ¬ s.tree.lookup p name < 0) : InRange (s.tree.lookup p name) := by
  have hp : s.tree p = some (.dir (dirSlots s.file (s.inode p))) := by
    rw [tree_of_allocated ha, nodeOf, if_pos hdir]
  have hval : s.tree.lookup p name =
      (SlotTable.lookup marker (dirSlots s.file (s.inode p)) name.bytes).getD (-1) := by
    rw [Fs.lookup, hp]
    rfl
  cases hsome : SlotTable.lookup marker (dirSlots s.file (s.inode p)) name.bytes with
  | none =>
      rw [hval, hsome] at hpos
      exact absurd (by decide) hpos
  | some i =>
      rw [hval, hsome]
      exact ((h.node p ha).dir hdir).inRange_of_mem (mem_of_lookup hsome)

/-- Which entries are cleared, and whether, does not depend on the uninitialised inode of the
child. -/
theorem WF.unlinkServer_varies (h : WF s) (ha : s.Allocated p) (hvar : st.Varies st') :
    (unlinkServer s p name st).1 = (unlinkServer s p name st').1 ∧
      Unchanged (unlinkServer s p name st).2 (unlinkServer s p name st').2 := by
  by_cases hdir : (s.inode p).type = mfsDirectory
  swap
  · have heq : ∀ u : Stack,
        unlinkServer s p name u = (-1, s.seek (blk (s.imap p) * 4096 + 124)) := by
      intro u
      unfold unlinkServer
      rw [h.findInode_eq ha u.pinode]
      simp [hdir]
    rw [heq st, heq st']
    exact ⟨rfl, Unchanged.of_eq rfl⟩
  have hshape := (h.node p ha).dir hdir
  have hused : (s.inode p).dpUsed 0 = 1 := (hshape.used_iff 0).mpr hshape.nblocks_pos
  obtain ⟨q, hlook⟩ := h.lookupServer_eq ha name st (blk ((s.inode p).dpointers 0) * 4096 + 4096)
  have hlook' := hlook
  rw [← lookupServer_varies hvar] at hlook'
  have heq := unlinkServer_dir (s := s) (h.findInode_eq ha st.pinode) hdir
    (h.readDirectory_eq ha hused st.direct (blk (s.imap p) * 4096 + 124)) hlook
  have heq' := unlinkServer_dir (s := s) (h.findInode_eq ha st'.pinode) hdir
    (h.readDirectory_eq ha hused st'.direct (blk (s.imap p) * 4096 + 124)) hlook'
  rw [heq, heq']
  by_cases hneg : s.tree.lookup p name < 0
  · rw [if_pos hneg, if_pos hneg]
    exact ⟨rfl, Unchanged.of_eq rfl⟩
  rw [if_neg hneg, if_neg hneg]
  have hr := h.lookup_inRange ha hdir hneg
  cases hname : (dirAt s.file ((s.inode p).dpointers 0)).findName name with
  | some j =>
      -- the child is read where its own inode lies, or else where the inode of the parent does
      have hfirst := h.lookupServer_first ha hused hname st
        (blk ((s.inode p).dpointers 0) * 4096 + 4096)
      rw [hlook, Prod.mk.injEq] at hfirst
      obtain ⟨i', q', _, _, hnode⟩ := h.findInode_child ha hdir hr
      rw [hfirst.2]
      unfold unlinkChild
      rw [hnode st.node, hnode st'.node, hvar.tempDir]
      exact ⟨rfl, Unchanged.of_eq rfl⟩
  | none =>
      have hnone := Directory.findName_eq_none hname
      have hfree : ∀ u : Stack, ∃ q', unlinkChild (s.inode p)
          (dirAt s.file ((s.inode p).dpointers 0)) name (s.tree.lookup p name) u (s.seek q) =
          (0, updateCR (freeNode (s.seek q') (s.tree.lookup p name)) (s.tree.lookup p name)) := by
        intro u
        obtain ⟨child, q', hchild⟩ := findInode_moves (s.seek q) (s.tree.lookup p name) u.node
        refine ⟨q', ?_⟩
        rw [unlinkChild_eq hchild (unlinkLoop_none hnone), if_neg (by simp)]
        rfl
      obtain ⟨q₁, h₁⟩ := hfree st
      obtain ⟨q₂, h₂⟩ := hfree st'
      rw [h₁, h₂, updateCR_eq hr, updateCR_eq hr]
      exact ⟨rfl, rfl, rfl, rfl, rfl⟩

/-- A settled request on an allocated number: the stack does not show. -/
theorem WF.serve_varies (h : WF s) {r : Request} (ha : s.Allocated r.inum) (hr : r.Settled s)
    (hvar : st.Varies st') :
    r.outcome (serve s r st).1 = r.outcome (serve s r st').1 ∧
      Unchanged (serve s r st).2 (serve s r st').2 := by
  cases r with
  | lookup p name =>
      have heq : lookupServer s p name st' = lookupServer s p name st := lookupServer_varies hvar
      simp only [serve, heq]
      exact ⟨rfl, Unchanged.of_eq rfl⟩
  | stat i =>
      simp only [serve, h.statServer_eq (i := i) ha]
      exact ⟨rfl, Unchanged.of_eq rfl⟩
  | write i buffer block =>
      have heq : writeServer s i buffer block st' = writeServer s i buffer block st :=
        h.writeServer_stack ha buffer block
      simp only [serve, heq]
      exact ⟨rfl, Unchanged.of_eq rfl⟩
  | read i block =>
      rcases hr with hout | hnone | ⟨k, hblock, _, hfile, hk⟩
      · exact absurd (h.inRange i ha) hout
      · obtain ⟨q, hq⟩ := readServer_noBlock (h.inRange i ha) hnone s st.response.buffer st
        obtain ⟨q', hq'⟩ := readServer_noBlock (h.inRange i ha) hnone s st'.response.buffer st'
        simp only [serve, hq, hq']
        rw [outcome_refused, outcome_refused]
        exact ⟨rfl, Unchanged.seeks s q q'⟩
      · obtain ⟨b, hb⟩ := h.readServer_full (i := i) ha hfile hblock hk
        obtain ⟨q, hq⟩ := hb st.response.buffer st
        obtain ⟨q', hq'⟩ := hb st'.response.buffer st'
        simp only [serve, hq, hq']
        exact ⟨rfl, Unchanged.seeks s q q'⟩
  | creat p type name =>
      have heq : creatServer s p type name st' = creatServer s p type name st :=
        creatServer_varies hvar type
      simp only [serve, heq]
      exact ⟨rfl, Unchanged.of_eq rfl⟩
  | unlink p name =>
      obtain ⟨hret, hsame⟩ : (unlinkServer s p name st).1 = (unlinkServer s p name st').1 ∧
          Unchanged (unlinkServer s p name st).2 (unlinkServer s p name st').2 :=
        h.unlinkServer_varies ha hvar
      simp only [serve, outcome_plain (r := .unlink p name) trivial, hret]
      exact ⟨trivial, hsame⟩

/-- A settled request on a number that is in range and free asks for a block that does not exist. -/
theorem Request.Settled.noBlock {r : Request} (h : r.Settled s) (hr : InRange r.inum)
    (hfree : ¬ s.Allocated r.inum) :
    ∃ block, blockIndex block = none ∧ ((∃ i buffer, r = .write i buffer block) ∨ ∃ i, r = .read i block) := by
  cases r with
  | write i buffer block =>
      rcases h with hout | ha | hnone
      · exact absurd hr hout
      · exact absurd ha hfree
      · exact ⟨block, hnone, Or.inl ⟨i, buffer, rfl⟩⟩
  | read i block =>
      rcases h with hout | hnone | ⟨_, _, ha, _⟩
      · exact absurd hr hout
      · exact ⟨block, hnone, Or.inr ⟨i, rfl⟩⟩
      · exact absurd ha hfree
  | _ => exact absurd h (not_or.mpr ⟨not_not.mpr hr, hfree⟩)

theorem WF.determined (h : WF s) {r : Request} (hset : r.Settled s) : r.Determined s := by
  intro p q st st' hvar
  by_cases hr : InRange r.inum
  swap
  · rw [serve_of_not_inRange hr, serve_of_not_inRange hr, outcome_refused, outcome_refused]
    exact ⟨rfl, Unchanged.seeks s p q⟩
  by_cases ha : s.Allocated r.inum
  · rw [serve_congr fun node => h.findInode_seek ha p node,
      serve_congr fun node => h.findInode_seek ha q node]
    exact h.serve_varies ha hset hvar
  obtain ⟨block, hnone, ⟨i, buffer, rfl⟩ | ⟨i, rfl⟩⟩ := hset.noBlock hr ha
  · obtain ⟨p', hp'⟩ := writeServer_noBlock (i := i) hr hnone (s.seek p) buffer st
    obtain ⟨q', hq'⟩ := writeServer_noBlock (i := i) hr hnone (s.seek q) buffer st'
    simp only [serve, hp', hq', outcome_refused]
    exact ⟨trivial, Unchanged.seeks s p' q'⟩
  · obtain ⟨p', hp'⟩ := readServer_noBlock (i := i) hr hnone (s.seek p) st.response.buffer st
    obtain ⟨q', hq'⟩ := readServer_noBlock (i := i) hr hnone (s.seek q) st'.response.buffer st'
    simp only [serve, hp', hq', outcome_refused]
    exact ⟨trivial, Unchanged.seeks s p' q'⟩

end Settled

/-! ## Requests that are not settled -/

section Unsettled

variable {s : Server} {i : Int32} {block : Int32} {k : Fin 14}

/-- With the descriptor at the end of the image, the inode of a free number is what the local held
before. -/
theorem findInode_eof (hr : InRange i) (hfree : ¬ s.Allocated i) (node : Inode) :
    findInode (s.seek s.file.size) i node = (0, node, s.seek s.file.size) := by
  have hread : readInode (s.file.seekTo s.file.size) node = (node, s.file.seekTo s.file.size) := by
    have havail : (s.file.seekTo s.file.size).avail inodeSize = 0 := by
      simp [File.avail]
    unfold readInode File.read
    rw [havail]
    refine Prod.ext (Inode.decode_eq fun o _ => ?_) rfl
    simp
  rw [findInode, if_neg (fun hc => not_inRange_iff.mpr hc hr), seek_imap, not_not.mp hfree, seek_file,
    File.lseek_of_neg _ blockOff_neg_one, hread]
  rfl

/-- The stack of zeroes with another `node` and another `response.buffer`, also after an overrun. -/
def stackWith (node : Inode) (b : UInt8) : Stack :=
  let st : Stack := default
  { st with node := node, overrun := fun _ => b, response := { st.response with buffer := fun _ => b } }

theorem stackWith_varies (node node' : Inode) (b b' : UInt8) :
    (stackWith node b).Varies (stackWith node' b') := by
  constructor <;> rfl

theorem not_determined_stat (hr : InRange i) (hfree : ¬ s.Allocated i) :
    ¬ Request.Determined s (.stat i) := by
  intro hdet
  have hstat : ∀ node, (serve (s.seek s.file.size) (.stat i) (stackWith node 0)).1 =
      ⟨0, ⟨node.type, node.size⟩, fun _ => 0⟩ := by
    intro node
    have heq : statServer (s.seek s.file.size) i (stackWith node 0).response.stat (stackWith node 0) =
        (0, ⟨node.type, node.size⟩, s.seek s.file.size) := by
      rw [statServer, show (stackWith node 0).node = node from rfl, findInode_eof hr hfree]
      simp
    simp only [serve, heq]
    rfl
  obtain ⟨hout, _⟩ := hdet s.file.size s.file.size _ _
    (stackWith_varies ⟨0, 0, 0, fun _ => 0, fun _ => 0⟩ ⟨1, 0, 0, fun _ => 0, fun _ => 0⟩ 0 0)
  rw [hstat, hstat] at hout
  simp [Request.outcome] at hout

theorem not_determined_write (hr : InRange i) (hfree : ¬ s.Allocated i)
    (hblock : blockIndex block = some k) (buffer : Block) :
    ¬ Request.Determined s (.write i buffer block) := by
  intro hdet
  have hwrite : ∀ node, (serve (s.seek s.file.size) (.write i buffer block) (stackWith node 0)).1.inum =
      if node.type = mfsRegularFile then 0 else -1 := by
    intro node
    simp only [serve]
    unfold writeServer
    rw [show (stackWith node 0).node = node from rfl, findInode_eof hr hfree]
    by_cases htype : node.type = mfsRegularFile <;> simp [htype, hblock]
  obtain ⟨hout, _⟩ := hdet s.file.size s.file.size _ _
    (stackWith_varies ⟨0, 0, 0, fun _ => 0, fun _ => 0⟩ ⟨0, 1, 0, fun _ => 0, fun _ => 0⟩ 0 0)
  have hplain : Request.Plain (.write i buffer block) := trivial
  rw [outcome_plain hplain, outcome_plain hplain, hwrite, hwrite, Outcome.mk.injEq] at hout
  exact absurd hout.1 (by decide)

/-- A read that leaves a byte of the buffer as it was. -/
theorem not_determined_read (node : Inode) (p : Nat) (o : Fin 4096)
    (hread : ∀ b, ∃ b' u, readServer (s.seek p) i (fun _ => b) block (stackWith node b) = (0, b', u) ∧
      b' o = b) :
    ¬ Request.Determined s (.read i block) := by
  intro hdet
  obtain ⟨hout, _⟩ := hdet p p _ _ (stackWith_varies node node 0 1)
  obtain ⟨b₀, u₀, h₀, ho₀⟩ := hread 0
  obtain ⟨b₁, u₁, h₁, ho₁⟩ := hread 1
  have hserve : ∀ {b b' u}, readServer (s.seek p) i (fun _ => b) block (stackWith node b) = (0, b', u) →
      Request.outcome (.read i block) (serve (s.seek p) (.read i block) (stackWith node b)).1 =
        ⟨0, none, some b'⟩ := by
    intro b b' u heq
    have heq' : readServer (s.seek p) i (stackWith node b).response.buffer block (stackWith node b) =
        (0, b', u) := heq
    simp only [serve, heq', Request.outcome]
    rw [if_pos (by decide)]
  rw [hserve h₀, hserve h₁, Outcome.mk.injEq, Option.some.injEq] at hout
  rw [hout.2.2] at ho₀
  exact absurd (ho₀.symm.trans ho₁) (by decide)

theorem not_determined_read_free (hr : InRange i) (hfree : ¬ s.Allocated i)
    (hblock : blockIndex block = some k) : ¬ Request.Determined s (.read i block) := by
  refine not_determined_read ⟨0, mfsRegularFile, 0, fun _ => -1, fun _ => 0⟩ s.file.size 0 ?_
  intro b
  have hread : ((s.seek s.file.size).file.lseek (blockOff (-1))).read (Block.mem fun _ => b) blockSize =
      (Block.mem fun _ => b, s.file.seekTo s.file.size) := by
    have havail : (s.file.seekTo s.file.size).avail blockSize = 0 := by
      simp [File.avail]
    rw [File.lseek_of_neg _ blockOff_neg_one, seek_file, File.read, havail]
    simp
  refine ⟨_, _, readServer_regular (findInode_eof hr hfree _) hblock rfl hread, ?_⟩
  rw [blockOf_mem]

/-- Behind the directory entry the buffer is left as it was, also after an overrun. -/
theorem readDirEnt_rest (i : Int32) (node : Inode) (b : UInt8) (s : Server) : ∃ b' u,
    readDirEnt i node (fun _ => b) (stackWith (default : Stack).node b) s = (b', u) ∧ b' 32 = b := by
  unfold readDirEnt
  dsimp only
  split
  · exact ⟨_, _, rfl, rfl⟩
  · exact ⟨_, _, rfl, rfl⟩

theorem WF.not_determined_read_dir (h : WF s) (ha : s.Allocated i)
    (hdir : (s.inode i).type ≠ mfsRegularFile) (hblock : blockIndex block = some k) :
    ¬ Request.Determined s (.read i block) := by
  -- a directory entry fills the first 32 bytes only
  refine not_determined_read (default : Stack).node s.file.pos 32 ?_
  intro b
  rw [seek_self]
  have heq : readServer s i (fun _ => b) block (stackWith (default : Stack).node b) =
      (0, readDirEnt i (s.inode i) (fun _ => b) (stackWith (default : Stack).node b)
        (s.seek (blk (s.imap i) * 4096 + 124))) := by
    unfold readServer
    rw [h.findInode_eq ha]
    simp [hblock, hdir]
  obtain ⟨b', u, hent, hb'⟩ := readDirEnt_rest i (s.inode i) b (s.seek (blk (s.imap i) * 4096 + 124))
  rw [hent] at heq
  exact ⟨b', u, heq, hb'⟩

theorem WF.not_determined_read_hole (h : WF s) (ha : s.Allocated i)
    (hfile : (s.inode i).type = mfsRegularFile) (hblock : blockIndex block = some k)
    (hk : (s.inode i).dpUsed k ≠ 1) (hsize : s.file.size < blk (s.imap i) * 4096 + 124 + 4096) :
    ¬ Request.Determined s (.read i block) := by
  -- the image ends before the buffer is full
  refine not_determined_read (default : Stack).node s.file.pos 4095 ?_
  intro b
  rw [seek_self]
  refine ⟨_, _, h.readServer_hole ha hfile hblock hk rfl _, ?_⟩
  have havail : ¬ 4095 < (s.file.seekTo (blk (s.imap i) * 4096 + 124)).avail blockSize := by
    simp only [File.avail, File.seekTo_size, File.seekTo_pos, blockSize]
    omega
  have hlast : (4095 : Fin 4096).val = 4095 := rfl
  simp only [blockOf, hlast]
  rw [if_neg havail]
  rfl

/-- The requests that hand data back, or take it, are determined only when they are settled. -/
def Request.Transfers : Request → Prop
  | .stat _ => True
  | .write _ _ _ => True
  | .read _ _ => True
  | _ => False

theorem WF.settled (h : WF s) {r : Request} (ht : r.Transfers) (hdet : r.Determined s) :
    r.Settled s := by
  by_contra hnot
  cases r with
  | stat i =>
      obtain ⟨hr, ha⟩ := not_or.mp hnot
      exact not_determined_stat (not_not.mp hr) ha hdet
  | write i buffer block =>
      obtain ⟨hr, hrest⟩ := not_or.mp hnot
      obtain ⟨ha, hblock⟩ := not_or.mp hrest
      obtain ⟨k, hk⟩ := Option.ne_none_iff_exists'.mp hblock
      exact not_determined_write (not_not.mp hr) ha hk buffer hdet
  | read i block =>
      obtain ⟨hr, hrest⟩ := not_or.mp hnot
      obtain ⟨hblock, hread⟩ := not_or.mp hrest
      obtain ⟨k, hk⟩ := Option.ne_none_iff_exists'.mp hblock
      by_cases ha : s.Allocated i
      swap
      · exact not_determined_read_free (not_not.mp hr) ha hk hdet
      by_cases hfile : (s.inode i).type = mfsRegularFile
      swap
      · exact h.not_determined_read_dir ha hfile hk hdet
      by_cases hused : (s.inode i).dpUsed k = 1
      · exact hread ⟨k, hk, ha, hfile, Or.inl hused⟩
      by_cases hsize : blk (s.imap i) * 4096 + 124 + 4096 ≤ s.file.size
      · exact hread ⟨k, hk, ha, hfile, Or.inr hsize⟩
      · exact h.not_determined_read_hole ha hfile hk hused (by omega) hdet
  | lookup _ _ => exact ht
  | creat _ _ _ => exact ht
  | unlink _ _ => exact ht

end Unsettled

/-! ## Reachable states -/

/-- **Replies depend on the file system only.**  In every state that tolerated requests lead to, a
settled request gets one answer and leaves one image, wherever the descriptor stands and whatever the
uninitialised locals hold; a `STAT`, `WRITE` or `READ` that is not settled does not. -/
theorem reply_determined {stack : Directory} {xs : List Turn} {s : Server}
    (hrun : Run turn (fun s x => Tolerated s x.1) (format stack) xs s) (r : Request) :
    (r.Settled s → r.Determined s) ∧ (r.Transfers → (r.Determined s ↔ r.Settled s)) := by
  have hwf := WF.run_tolerated hrun (format_spec stack).1
  exact ⟨hwf.determined, fun ht => ⟨hwf.settled ht, hwf.determined⟩⟩

theorem reply_determined_fresh :
    Request.Determined (format (default : Stack).direct) (.stat 0) :=
  (reply_determined (Run.nil (format (default : Stack).direct)) (.stat 0)).1
    (Or.inr (by rw [Request.inum, Server.Allocated, format_eq]; decide))

/-- The root directory of a fresh image is read: 4064 of the 4096 bytes are whatever `response` held
before. -/
theorem not_reply_determined :
    ¬ ∀ (s : Server) (r : Request), r.Determined s := by
  intro hclaim
  have hwf := (format_spec (default : Stack).direct).1
  have hroot : (format (default : Stack).direct).tree.IsDir 0 := by
    rw [(format_spec (default : Stack).direct).2.1]
    exact ⟨_, rfl⟩
  obtain ⟨ha, hdir⟩ := isDir_iff.mp hroot
  refine hwf.not_determined_read_dir (k := 0) ha ?_ ?_ (hclaim _ (.read 0 0))
  · rw [hdir]
    decide
  · rfl

end Linux
end LfsXv6
