import LfsXv6.Xv6.Accounting
import LfsXv6.Xv6.MkfsImage

/-!
# MkfsPlan — what an image is going to hold

A `Plan` says for each inode number its type, the bytes appended to it, and whether its size has been
rounded up; it knows nothing of blocks.  `mkfs` is followed on plans by `planEntries`, and `Built` says
that an image is laid out according to a plan.  As long as inode numbers last, every step of `mkfs`
leads from an image that is `Built` to one that is, or stops where the whole plan does not fit.
-/

namespace LfsXv6
namespace Xv6

open Lib Prog

/-! ## Trees of the host -/

namespace Entries

/-- The number of files and directories, at all depths. -/
def count : Entries → Nat
  | .nil => 0
  | .file _ _ rest => 1 + rest.count
  | .dir _ sub rest => 1 + sub.count + rest.count

/-- The number of entries of the directory itself. -/
def length : Entries → Nat
  | .nil => 0
  | .file _ _ rest => rest.length + 1
  | .dir _ _ rest => rest.length + 1

/-- The entries of the directory itself with the numbers of their inodes, from `n` on. -/
def numbered (n : Nat) : Entries → List (Nat × List UInt8)
  | .nil => []
  | .file name _ rest => (n, name) :: rest.numbered (n + 1)
  | .dir name sub rest => (n, name) :: rest.numbered (n + 1 + sub.count)

theorem length_numbered (es : Entries) (n : Nat) : (es.numbered n).length = es.length := by
  induction es generalizing n with
  | nil => rfl
  | file name chunks rest ih => exact congrArg (· + 1) (ih _)
  | dir name sub rest _ ihr => exact congrArg (· + 1) (ihr _)

end Entries

/-! ## Plans -/

structure PlanNode where
  type : Int16
  bytes : List UInt8
  rounded : Bool

/-- The size of the inode. -/
def PlanNode.size (x : PlanNode) : Nat :=
  if x.rounded then (x.bytes.length / bsize + 1) * bsize else x.bytes.length

/-- The inodes with numbers below `n`, from 1 on. -/
structure Plan where
  n : Nat
  node : Nat → PlanNode

namespace Plan

/-- A new, empty inode. -/
def alloc (P : Plan) (type : Int16) : Plan :=
  { n := P.n + 1, node := Function.update P.node P.n ⟨type, [], false⟩ }

/-- Bytes at the end of inode `i`. -/
def append (P : Plan) (i : Nat) (bytes : List UInt8) : Plan :=
  { P with node := Function.update P.node i { P.node i with bytes := (P.node i).bytes ++ bytes } }

/-- The size of inode `i` is rounded up. -/
def round (P : Plan) (i : Nat) : Plan :=
  { P with node := Function.update P.node i { P.node i with rounded := true } }

/-- The entries `"."` and `".."`. -/
def dots (P : Plan) (i parent : Nat) : Plan :=
  (P.append i (hostDirent i [46])).append i (hostDirent parent [46, 46])

/-- The file whose bytes come in `chunks`. -/
def chunks (P : Plan) (i : Nat) (cs : List (List UInt8)) : Plan := cs.foldl (fun Q c => Q.append i c) P

/-- The blocks that the plan needs. -/
def blocks (P : Plan) : Nat := ∑ i ∈ Finset.Ico 1 P.n, blocksFor (P.node i).bytes.length

/-- The plan is within the limits of files and of the disk. -/
structure Fits (P : Plan) : Prop where
  short : ∀ i, 1 ≤ i → i < P.n → (P.node i).bytes.length ≤ maxfile * bsize
  room : 29 + P.blocks ≤ 1024

/-- Nothing but additions lead from the one plan to the other. -/
structure Le (P F : Plan) : Prop where
  n : P.n ≤ F.n
  bytes : ∀ i, 1 ≤ i → i < P.n → (P.node i).bytes.length ≤ (F.node i).bytes.length

end Plan

/-- The loop of `add_dir` on plans. -/
def planEntries (cur : Nat) : Entries → Plan → Plan
  | .nil, P => P
  | .file name chunks rest, P =>
      planEntries cur rest (((P.alloc tFile).chunks P.n chunks).append cur (hostDirent P.n name))
  | .dir name sub rest, P =>
      planEntries cur rest (((planEntries P.n sub ((P.alloc tDir).dots P.n cur)).round P.n).append cur
        (hostDirent P.n name))

/-- The plan of a whole image. -/
def planMain (root : Entries) : Plan :=
  (planEntries 1 root (((Plan.mk 1 fun _ => ⟨0, [], false⟩).alloc tDir).dots 1 1)).round 1

namespace Plan

variable {P Q F : Plan} {i j : Nat} {bytes : List UInt8} {type : Int16}

@[simp] theorem alloc_n : (P.alloc type).n = P.n + 1 := rfl

@[simp] theorem append_n : (P.append i bytes).n = P.n := rfl

@[simp] theorem round_n : (P.round i).n = P.n := rfl

@[simp] theorem alloc_node_self : (P.alloc type).node P.n = ⟨type, [], false⟩ :=
  Function.update_self ..

theorem alloc_node_ne (h : j ≠ P.n) : (P.alloc type).node j = P.node j := Function.update_of_ne h ..

@[simp] theorem append_node_self :
    (P.append i bytes).node i = { P.node i with bytes := (P.node i).bytes ++ bytes } :=
  Function.update_self ..

theorem append_node_ne (h : j ≠ i) : (P.append i bytes).node j = P.node j := Function.update_of_ne h ..

@[simp] theorem round_node_self : (P.round i).node i = { P.node i with rounded := true } :=
  Function.update_self ..

theorem round_node_ne (h : j ≠ i) : (P.round i).node j = P.node j := Function.update_of_ne h ..

theorem round_bytes : ((P.round i).node j).bytes = (P.node j).bytes := by
  by_cases hj : j = i
  · rw [hj, round_node_self]
  · rw [round_node_ne hj]

theorem Le.refl (P : Plan) : Le P P := ⟨le_rfl, fun _ _ _ => le_rfl⟩

theorem Le.trans (h : Le P Q) (h' : Le Q F) : Le P F :=
  ⟨h.n.trans h'.n, fun i hi hn => (h.bytes i hi hn).trans (h'.bytes i hi (hn.trans_le h.n))⟩

theorem le_alloc : Le P (P.alloc type) := by
  refine ⟨Nat.le_succ _, ?_⟩
  intro i _ hi
  rw [alloc_node_ne (by omega)]

theorem le_append : Le P (P.append i bytes) := by
  refine ⟨le_rfl, ?_⟩
  intro j _ _
  by_cases hj : j = i
  · rw [hj, append_node_self, List.length_append]
    exact Nat.le_add_right _ _
  · rw [append_node_ne hj]

theorem le_round : Le P (P.round i) := by
  refine ⟨le_rfl, ?_⟩
  intro j _ _
  rw [round_bytes]

theorem le_dots {parent : Nat} : Le P (P.dots i parent) := le_append.trans le_append

theorem le_chunks (cs : List (List UInt8)) : Le P (P.chunks i cs) := by
  induction cs generalizing P with
  | nil => exact Le.refl P
  | cons c cs ih => exact le_append.trans ih

theorem le_planEntries (cur : Nat) (es : Entries) : Le P (planEntries cur es P) := by
  induction es generalizing cur P with
  | nil => exact Le.refl P
  | file name chunks rest ih => exact le_alloc.trans ((le_chunks _).trans (le_append.trans (ih cur)))
  | dir name sub rest ihs ihr =>
      exact le_alloc.trans (le_dots.trans ((ihs _).trans (le_round.trans (le_append.trans (ihr cur)))))

theorem Le.blocks (h : Le P F) : P.blocks ≤ F.blocks := by
  calc
    P.blocks ≤ ∑ i ∈ Finset.Ico 1 P.n, blocksFor (F.node i).bytes.length := by
      refine Finset.sum_le_sum ?_
      intro i hi
      obtain ⟨hlo, hhi⟩ := Finset.mem_Ico.mp hi
      exact blocksFor_mono (h.bytes i hlo hhi)
    _ ≤ F.blocks := Finset.sum_le_sum_of_subset (Finset.Ico_subset_Ico_right h.n)

theorem Le.fits (h : Le P F) (hF : F.Fits) : P.Fits := by
  refine ⟨?_, ?_⟩
  · intro i hi hn
    exact (h.bytes i hi hn).trans (hF.short i hi (hn.trans_le h.n))
  · have := h.blocks
    have := hF.room
    omega

theorem blocks_append (hi : 1 ≤ i) (hn : i < P.n) :
    (P.append i bytes).blocks + blocksFor (P.node i).bytes.length =
      P.blocks + blocksFor ((P.node i).bytes.length + bytes.length) := by
  have hmem : i ∈ Finset.Ico 1 P.n := Finset.mem_Ico.mpr ⟨hi, hn⟩
  have hself : ((P.append i bytes).node i).bytes.length = (P.node i).bytes.length + bytes.length := by
    rw [append_node_self, List.length_append]
  have hrest : ∑ j ∈ (Finset.Ico 1 P.n).erase i, blocksFor ((P.append i bytes).node j).bytes.length =
      ∑ j ∈ (Finset.Ico 1 P.n).erase i, blocksFor (P.node j).bytes.length := by
    refine Finset.sum_congr rfl ?_
    intro j hj
    rw [append_node_ne (Finset.ne_of_mem_erase hj)]
  have h1 := Finset.add_sum_erase _ (fun j => blocksFor ((P.append i bytes).node j).bytes.length) hmem
  have h2 := Finset.add_sum_erase _ (fun j => blocksFor (P.node j).bytes.length) hmem
  simp only [hself, hrest] at h1
  have h3 : (P.append i bytes).blocks = ∑ j ∈ Finset.Ico 1 P.n,
      blocksFor ((P.append i bytes).node j).bytes.length := rfl
  have h4 : P.blocks = ∑ j ∈ Finset.Ico 1 P.n, blocksFor (P.node j).bytes.length := rfl
  omega

theorem blocks_alloc (hn : 1 ≤ P.n) : (P.alloc type).blocks = P.blocks := by
  have hlast : (P.alloc type).blocks = ∑ j ∈ Finset.Ico 1 (P.n + 1),
      blocksFor ((P.alloc type).node j).bytes.length := rfl
  have hself : blocksFor ((P.alloc type).node P.n).bytes.length = 0 := by
    rw [alloc_node_self, List.length_nil, blocksFor_zero]
  rw [hlast, Finset.sum_Ico_succ_top hn, hself, Nat.add_zero]
  refine Finset.sum_congr rfl ?_
  intro j hj
  have := (Finset.mem_Ico.mp hj).2
  rw [alloc_node_ne (by omega)]

theorem blocks_round : (P.round i).blocks = P.blocks := by
  refine Finset.sum_congr rfl ?_
  intro j _
  rw [round_bytes]

end Plan

/-! ## Images according to a plan -/

/-- The inode is as planned. -/
structure Describes (disk : Nat → Sector) (n : Dinode) (x : PlanNode) : Prop where
  type : n.type = x.type
  kind : x.type = tDir ∨ x.type = tFile
  nlink : n.nlink = 1
  size : n.size = UInt32.ofNat x.size
  short : x.bytes.length ≤ maxfile * bsize
  filled : Filled disk n x.bytes.length
  byte : ∀ o, o / bsize < maxfile → byteAt disk n o = x.bytes.getD o 0

/-- The image is laid out according to a plan.  Inodes past the end of the table may be there, in the
last inode block, as long as they have no blocks. -/
structure Built (st : Image) (P : Plan) : Prop where
  underway : Underway st
  high : st.freeblock ≤ 1024
  inodes : st.freeinode = P.n
  numbers : ∀ i, .inode i ∈ st.writes → i < P.n
  pos : 1 ≤ P.n
  few : P.n ≤ 208
  consistent : Consistent imageSb st.disk
  unused : ∀ i, i < 200 → i = 0 ∨ P.n ≤ i → (dnode st.disk i).type = 0
  blocks : st.freeblock = 29 + P.blocks
  node : ∀ i, 1 ≤ i → i < P.n → i < 200 → Describes st.disk (dnode st.disk i) (P.node i)

namespace Describes

variable {disk disk' : Nat → Sector} {n : Dinode} {x : PlanNode}

theorem sameFile (h : Describes disk n x) (hs : SameFile disk disk' n) : Describes disk' n x := by
  refine ⟨h.type, h.kind, h.nlink, h.size, h.short, ⟨?_, h.filled.indirect⟩, ?_⟩
  · intro bn hbn
    rw [hs.addr]
    exact h.filled.block bn hbn
  · intro o ho
    rw [hs.byteAt_eq]
    exact h.byte o ho

theorem allocated (h : Describes disk n x) : n.type ≠ 0 := by
  rw [h.type]
  rcases h.kind with hk | hk <;> rw [hk] <;> decide

theorem not_checked (h : Describes disk n x) : n.type ≠ tChecked := by
  rw [h.type]
  rcases h.kind with hk | hk <;> rw [hk] <;> decide

theorem size_toNat (h : Describes disk n x) : n.size.toNat = x.size := by
  have hshort := h.short
  rw [h.size, UInt32.toNat_ofNat', PlanNode.size]
  simp only [maxfile, bsize] at hshort ⊢
  split <;> omega

end Describes

namespace Built

variable {st t : Image} {P : Plan} {ip : Inode} {x : PlanNode} {i : Nat}

theorem consistent_holding (h : Built st P) (hi : 1 ≤ i) (hn : i < P.n) (hnum : i < 200) :
    Holding imageSb st.disk { dnode st.disk i with inum := i } :=
  h.consistent.holding hnum (h.node i hi hn hnum).allocated rfl

/-- An inode is written back, and the others are as they were. -/
theorem putInode (h : Built st P) (hi : 1 ≤ ip.inum) (hn : ip.inum < P.n) (hnum : ip.inum < 200)
    (hhold : Holding imageSb t.disk ip) (hu : Underway t) (hhigh : t.freeblock ≤ 1024)
    (hinodes : t.freeinode = st.freeinode)
    (hnumbers : ∀ j, .inode j ∈ t.writes → .inode j ∈ st.writes)
    (hothers : ∀ j, j < 200 → dnode t.disk j = dnode st.disk j)
    (hfiles : ∀ j, j < 200 → j ≠ ip.inum → (dnode st.disk j).type ≠ 0 →
      SameFile st.disk t.disk (dnode st.disk j))
    (hx : Describes t.disk ip.toDinode x)
    (hblocks : t.freeblock = 29 + Plan.blocks { P with node := Function.update P.node ip.inum x }) :
    Built (t.putInode ip) { P with node := Function.update P.node ip.inum x } := by
  have hdisk : (t.putInode ip).disk = putNode t.disk ip := putInode_disk (by omega)
  have hsame : ∀ j, j < 200 → (nodesWith t.disk ip j).type ≠ 0 →
      SameFile t.disk (putNode t.disk ip) (nodesWith t.disk ip j) :=
    fun j hj ht => SameFile.putNode hhold.ledger hj ht (Superblock.inodeBlock_iblock hnum)
  refine ⟨hu.putInode, hhigh, hinodes.trans h.inodes, ?_, h.pos, h.few, ?_, ?_, hblocks, ?_⟩
  · intro j hj
    rcases List.mem_cons.mp hj with heq | hj
    · rw [ImageWrite.inode.inj heq]
      exact hn
    · exact h.numbers j (hnumbers j hj)
  · rw [hdisk]
    exact hhold.consistent
  · intro j hj hout
    have hne : j ≠ ip.inum := by
      rintro rfl
      have : ip.inum = 0 ∨ P.n ≤ ip.inum := hout
      omega
    rw [hdisk, dnode_putNode, nodesWith, Function.update_of_ne hne, hothers j hj]
    exact h.unused j hj hout
  · intro j hj1 hjn hj
    rw [hdisk, dnode_putNode]
    by_cases hji : j = ip.inum
    · subst hji
      have hnode : nodesWith t.disk ip ip.inum = ip.toDinode := Function.update_self ..
      have hs := hsame ip.inum hj
      rw [hnode] at hs ⊢
      show Describes _ _ (Function.update P.node ip.inum x ip.inum)
      rw [Function.update_self]
      exact hx.sameFile (hs hhold.allocated)
    · have hnode : nodesWith t.disk ip j = dnode st.disk j := by
        rw [nodesWith, Function.update_of_ne hji, hothers j hj]
      have hold := h.node j hj1 hjn hj
      have hs := hsame j hj
      rw [hnode] at hs ⊢
      show Describes _ _ (Function.update P.node ip.inum x j)
      rw [Function.update_of_ne hji]
      exact hold.sameFile ((hfiles j hj hji hold.allocated).trans (hs hold.allocated))

theorem size_of_not_rounded (h : Built st P) (hi : 1 ≤ i) (hn : i < P.n) (hnum : i < 200)
    (hr : (P.node i).rounded = false) : (dnode st.disk i).size.toNat = (P.node i).bytes.length := by
  rw [(h.node i hi hn hnum).size_toNat, PlanNode.size, hr]
  rfl

theorem iappend (h : Built st P) (hi : 1 ≤ i) (hn : i < P.n) (hnum : i < 200)
    (hr : (P.node i).rounded = false) {bytes : List UInt8} {F : Plan} (hF : (P.append i bytes).Le F) :
    Ends (Xv6.iappend i bytes) st (¬ F.Fits) fun _ t => Built t (P.append i bytes) := by
  have hd := h.node i hi hn hnum
  have hsize := h.size_of_not_rounded hi hn hnum hr
  have hblocks : (P.append i bytes).blocks + _ = P.blocks + _ := Plan.blocks_append hi hn
  have hstart : Appending st { dnode st.disk i with inum := i } (P.node i).bytes.length [] st
      { dnode st.disk i with inum := i } :=
    ⟨h.consistent_holding hi hn hnum, rfl, h.underway, h.high, rfl, fun _ hw => hw, rfl, hd.short, Stored.refl _ _ _, hd.filled,
      fun _ _ => rfl, fun _ _ _ _ => SameFile.refl _ _⟩
  have hloop := hstart.loop bytes hd.not_checked le_rfl rfl
  rw [List.nil_append] at hloop
  unfold Xv6.iappend
  refine ends_step (rinode_ok h.underway (by omega)) ?_
  simp only [hsize]
  refine ends_bind (hloop.mono ?_ fun _ _ hr => hr) ?_
  · -- the loop stops only where already this file is too long, or these blocks are too many
    intro hover hfits
    have hfit := hF.fits hfits
    have hshort := hfit.short i hi hn
    have hroom := hfit.room
    have hst := h.blocks
    rw [Plan.append_node_self, List.length_append] at hshort
    simp only [List.length_nil, Nat.add_zero] at hover
    omega
  · intro ip' t happ
    have hsame := happ.same
    have htype : ip'.type = (dnode st.disk i).type := by rw [hsame]
    have hinum : ip'.inum = i := by rw [hsame]
    refine ends_of_ok (winode_ok happ.underway (by omega) _) ?_
    have hfin : Describes t.disk
        { ip'.toDinode with size := UInt32.ofNat ((P.node i).bytes.length + bytes.length) }
          { P.node i with bytes := (P.node i).bytes ++ bytes } := by
      refine ⟨htype.trans hd.type, hd.kind, ?_, ?_, ?_, ?_, ?_⟩
      · show ip'.nlink = 1
        rw [hsame]
        exact hd.nlink
      · simp only [PlanNode.size, hr, List.length_append]
        rfl
      · rw [List.length_append]
        exact happ.short
      · rw [List.length_append]
        exact ⟨happ.filled.block, happ.filled.indirect⟩
      · intro o ho
        have hbyte := happ.stored.byte o ho
        have hold : byteAt st.disk (dnode st.disk i) o = (P.node i).bytes.getD o 0 := hd.byte o ho
        refine Eq.trans ?_ (hbyte.trans ?_)
        · rfl
        split
        · rename_i hin
          rw [List.getD_append_right _ _ _ _ hin.1]
        · rename_i hout
          refine hold.trans ?_
          by_cases hlt : o < (P.node i).bytes.length
          · rw [List.getD_append _ _ _ _ hlt]
          · rw [List.getD_eq_default _ _ (by omega), List.getD_eq_default _ _ (by
              rw [List.length_append]
              omega)]
    have hhold : Holding imageSb t.disk
        { ip' with size := UInt32.ofNat ((P.node i).bytes.length + bytes.length), inum := i } :=
      happ.holding.of_words hinum.symm rfl rfl
    refine h.putInode (x := { P.node i with bytes := (P.node i).bytes ++ bytes }) hi hn hnum hhold
      happ.underway happ.high happ.inode happ.numbers happ.others happ.files hfin ?_
    have hcount := happ.blocks
    have hst := h.blocks
    show t.freeblock = 29 + (P.append i bytes).blocks
    omega

theorem fixSize (h : Built st P) (hi : 1 ≤ i) (hn : i < P.n) (hnum : i < 200)
    (hr : (P.node i).rounded = false) {E : Prop} : Ends (Xv6.fixSize i) st E fun _ t => Built t (P.round i) := by
  have hd := h.node i hi hn hnum
  have hsize := h.size_of_not_rounded hi hn hnum hr
  unfold Xv6.fixSize
  refine ends_step (rinode_ok h.underway (by omega)) ?_
  rw [hsize]
  refine ends_of_ok (winode_ok h.underway (by omega) _) ?_
  refine h.putInode (x := { P.node i with rounded := true }) hi hn hnum ?_ h.underway h.high rfl
    (fun _ hw => hw) (fun _ _ => rfl) (fun _ _ _ _ => SameFile.refl _ _) ?_ ?_
  · exact (h.consistent_holding hi hn hnum).of_words rfl rfl rfl
  · exact ⟨hd.type, hd.kind, hd.nlink, rfl, hd.short, ⟨hd.filled.block, hd.filled.indirect⟩, hd.byte⟩
  · rw [h.blocks]
    exact congrArg (29 + ·) Plan.blocks_round.symm

theorem hostIalloc (h : Built st P) (hn : P.n < 208) {type : Int16} (htype : type = tDir ∨ type = tFile)
    {E : Prop} : Ends (Xv6.hostIalloc type) st E fun i t => i = P.n ∧ Built t (P.alloc type) := by
  have hpos := h.pos
  have hnew : ∀ p, (madeInode type).addr st.disk p = 0 := by
    intro p
    cases p <;> simp [Dinode.addr, Dinode.word, Dinode.indirect, madeInode]
  have hblock : imageSb.InodeBlock (iblock P.n) := by
    refine ⟨?_, ?_⟩
    · exact Nat.le_add_left 2 _
    · exact iblock_lt_28 hn
  have hu : Underway { st with freeinode := st.freeinode + 1 } :=
    ⟨h.underway.len, h.underway.low, h.underway.used, h.underway.data⟩
  unfold Xv6.hostIalloc
  refine ends_step rfl (ends_step rfl ?_)
  simp only [h.inodes] at hu ⊢
  refine ends_step (winode_ok hu hn (madeInode type)) (ends_pure ⟨rfl, ?_⟩)
  have hdisk : (Image.putInode { st with freeinode := P.n + 1 } { madeInode type with inum := P.n }).disk =
      putNode st.disk { madeInode type with inum := P.n } := putInode_disk hn
  have hcons : Consistent imageSb (putNode st.disk { madeInode type with inum := P.n }) := by
    refine Consistent.replace (s := ⟨st.disk, []⟩) h.consistent hblock ?_ (.inr hnew)
    intro p
    exact if_neg fun hc => hc.2 (h.unused P.n hc.1 (.inr le_rfl))
  refine ⟨hu.putInode, h.high, rfl, ?_, by simp, by simp; omega, ?_, ?_, ?_, ?_⟩
  · intro j hj
    rcases List.mem_cons.mp hj with heq | hj
    · have hjn : j = P.n := ImageWrite.inode.inj heq
      rw [hjn]
      exact Nat.lt_succ_self _
    · exact Nat.lt_succ_of_lt (h.numbers j hj)
  · rw [hdisk]
    exact hcons
  · intro j hj hout
    have hne : j ≠ P.n := by
      simp only [Plan.alloc_n] at hout
      omega
    rw [hdisk, dnode_putNode, nodesWith, Function.update_of_ne hne]
    refine h.unused j hj ?_
    simp only [Plan.alloc_n] at hout
    omega
  · rw [Plan.blocks_alloc hpos]
    exact h.blocks
  · intro j hj hjn hjnum
    simp only [Plan.alloc_n] at hjn
    rw [hdisk, dnode_putNode, nodesWith]
    by_cases hjP : j = P.n
    · subst hjP
      rw [Function.update_self, Plan.alloc_node_self]
      have hnew' : ∀ p, (madeInode type).addr (putNode st.disk { madeInode type with inum := P.n }) p = 0 := by
        intro p
        cases p <;> simp [Dinode.addr, Dinode.word, Dinode.indirect, madeInode]
      refine ⟨rfl, htype, rfl, rfl, Nat.zero_le _, ⟨?_, ?_⟩, ?_⟩
      · intro bn _
        simp [hnew']
      · simp [Dinode.indirect, madeInode]
      · intro o _
        rw [byteAt, if_pos (hnew' _)]
        rfl
    · rw [Function.update_of_ne hjP, Plan.alloc_node_ne hjP]
      have hold := h.node j hj (by omega) hjnum
      exact hold.sameFile (SameFile.putNode h.consistent.ledger hjnum hold.allocated hblock)

end Built

/-! ## Directories -/

section Directories

variable {st : Image} {P F : Plan} {i cur parent : Nat}

@[simp] theorem Plan.dots_n : (P.dots i parent).n = P.n := rfl

@[simp] theorem Plan.chunks_n (cs : List (List UInt8)) : (P.chunks i cs).n = P.n := by
  induction cs generalizing P with
  | nil => rfl
  | cons c cs ih => exact ih

@[simp] theorem planEntries_n (cur : Nat) (es : Entries) : (planEntries cur es P).n = P.n + es.count := by
  induction es generalizing cur P with
  | nil => rfl
  | file name chunks rest ih =>
      rw [planEntries, ih]
      simp only [Plan.append_n, Plan.chunks_n, Plan.alloc_n, Entries.count]
      omega
  | dir name sub rest ihs ihr =>
      rw [planEntries, ihr]
      simp only [Plan.append_n, Plan.round_n, ihs, Plan.dots_n, Plan.alloc_n, Entries.count]
      omega

theorem Plan.dots_node_ne {j : Nat} (h : j ≠ i) : (P.dots i parent).node j = P.node j := by
  rw [dots, append_node_ne h, append_node_ne h]

theorem Plan.chunks_node_ne {j : Nat} (h : j ≠ i) (cs : List (List UInt8)) :
    (P.chunks i cs).node j = P.node j := by
  induction cs generalizing P with
  | nil => rfl
  | cons c cs ih =>
      rw [chunks, List.foldl_cons]
      exact ih.trans (append_node_ne h)

theorem Plan.chunks_node_self (cs : List (List UInt8)) :
    (P.chunks i cs).node i = { P.node i with bytes := (P.node i).bytes ++ cs.flatten } := by
  induction cs generalizing P with
  | nil => simp [chunks]
  | cons c cs ih =>
      have hstep : (P.chunks i (c :: cs)).node i = ((P.append i c).chunks i cs).node i := rfl
      rw [hstep, ih, append_node_self, List.flatten_cons, List.append_assoc]

/-- The inodes that were there, but for the directory itself, stay. -/
theorem planEntries_node_ne (es : Entries) {j : Nat} (hj : j < P.n) (hne : j ≠ cur) :
    (planEntries cur es P).node j = P.node j := by
  induction es generalizing cur P with
  | nil => rfl
  | file name chunks rest ih =>
      rw [planEntries, ih (by simp; omega) hne, Plan.append_node_ne hne, Plan.chunks_node_ne (by omega),
        Plan.alloc_node_ne (by omega)]
  | dir name sub rest ihs ihr =>
      rw [planEntries, ihr (by simp; omega) hne, Plan.append_node_ne hne, Plan.round_node_ne (by omega),
        ihs (by simp; omega) (by omega), Plan.dots_node_ne (by omega), Plan.alloc_node_ne (by omega)]

/-- The bytes of entries. -/
def direntBytes (es : List (Nat × List UInt8)) : List UInt8 := es.flatMap fun e => hostDirent e.1 e.2

theorem length_hostDirent (i : Nat) (name : List UInt8) : (hostDirent i name).length = 16 := by
  simp only [hostDirent, Dirent.encode, List.length_append, List.length_cons, List.length_nil,
    List.length_take, List.length_replicate]
  omega

theorem length_direntBytes (es : List (Nat × List UInt8)) : (direntBytes es).length = 16 * es.length := by
  induction es with
  | nil => rfl
  | cons e es ih =>
      have hcons : direntBytes (e :: es) = hostDirent e.1 e.2 ++ direntBytes es := rfl
      rw [hcons, List.length_append, length_hostDirent, ih, List.length_cons]
      omega

/-- The directory itself gets its entries. -/
theorem planEntries_node_self (es : Entries) (hcur : cur < P.n) : (planEntries cur es P).node cur =
    { P.node cur with bytes := (P.node cur).bytes ++ direntBytes (es.numbered P.n) } := by
  induction es generalizing P with
  | nil => simp [planEntries, Entries.numbered, direntBytes]
  | file name chunks rest ih =>
      rw [planEntries, ih (by simp; omega), Plan.append_node_self, Plan.chunks_node_ne (by omega),
        Plan.alloc_node_ne (by omega)]
      simp [Entries.numbered, direntBytes, List.append_assoc]
  | dir name sub rest _ ihr =>
      rw [planEntries, ihr (by simp; omega), Plan.append_node_self, Plan.round_node_ne (by omega),
        planEntries_node_ne _ (by simp; omega) (by omega), Plan.dots_node_ne (by omega),
        Plan.alloc_node_ne (by omega)]
      simp [Entries.numbered, direntBytes, List.append_assoc]

theorem Built.dots (h : Built st P) (hi : 1 ≤ i) (hn : i < P.n) (hnum : i < 200)
    (hr : (P.node i).rounded = false) (hF : (P.dots i parent).Le F) {β : Type} {f : Unit → Prog Image β} {R : β → Image → Prop}
    (hf : ∀ t, Built t (P.dots i parent) → Ends (f ()) t (¬ F.Fits) R) :
    Ends (do
      Xv6.iappend i (hostDirent i [46])
      Xv6.iappend i (hostDirent parent [46, 46])
      f ()) st (¬ F.Fits) R := by
  refine ends_bind (h.iappend hi hn hnum hr (Plan.le_append.trans hF)) ?_
  intro _ t ht
  refine ends_bind (ht.iappend hi hn hnum (by simpa using hr) hF) ?_
  intro _ u hu
  exact hf u hu

theorem Built.chunks (h : Built st P) (hi : 1 ≤ i) (hn : i < P.n) (hnum : i < 200)
    (hr : (P.node i).rounded = false) {cs : List (List UInt8)} (hF : (P.chunks i cs).Le F) :
    Ends (each (fun chunk => Xv6.iappend i chunk) cs) st (¬ F.Fits) fun _ t =>
      Built t (P.chunks i cs) := by
  induction cs generalizing P st with
  | nil => exact ends_pure h
  | cons c cs ih =>
      refine ends_bind (h.iappend hi hn hnum hr ((Plan.le_chunks cs).trans hF)) ?_
      intro _ t ht
      exact ih ht hn (by simpa using hr) hF

/-- **Simulation.**  The loop of `add_dir` does to an image what `planEntries` does to its plan. -/
theorem Built.addEntries (h : Built st P) {es : Entries} (hi : 1 ≤ cur) (hn : cur < P.n)
    (hr : (P.node cur).rounded = false) (hcount : P.n + es.count ≤ 200)
    (hF : (planEntries cur es P).Le F) :
    Ends (Xv6.addEntries cur es) st (¬ F.Fits) fun _ t => Built t (planEntries cur es P) := by
  induction es generalizing cur P st with
  | nil => exact ends_pure h
  | file name chunks rest ih =>
      have hpos := h.pos
      simp only [Entries.count] at hcount
      have hrest := (Plan.le_planEntries (P := ((P.alloc tFile).chunks P.n chunks).append cur
        (hostDirent P.n name)) cur rest).trans hF
      have hchunk := Plan.le_append.trans hrest
      have hcur : (((P.alloc tFile).chunks P.n chunks).node cur).rounded = false := by
        rw [Plan.chunks_node_ne (by omega), Plan.alloc_node_ne (by omega)]
        exact hr
      refine ends_bind (h.hostIalloc (by omega) (.inr rfl)) ?_
      rintro _ t ⟨rfl, ht⟩
      refine ends_bind (ht.chunks hpos (by simp) (by omega) (by simp) hchunk) ?_
      intro _ u hu
      refine ends_bind (hu.iappend hi (by simp; omega) (by omega) hcur hrest) ?_
      intro _ v hv
      refine ih hv hi (by simp; omega) ?_ (by simp; omega) hF
      rw [Plan.append_node_self]
      exact hcur
  | dir name sub rest ihs ihr =>
      have hpos := h.pos
      simp only [Entries.count] at hcount
      have hrest := (Plan.le_planEntries (P := ((planEntries P.n sub ((P.alloc tDir).dots P.n cur)).round
        P.n).append cur (hostDirent P.n name)) cur rest).trans hF
      have hround := Plan.le_append.trans hrest
      have hsub := Plan.le_round.trans hround
      have hcur : (((planEntries P.n sub ((P.alloc tDir).dots P.n cur)).round P.n).node cur).rounded =
          false := by
        rw [Plan.round_node_ne (by omega), planEntries_node_ne _ (by simp; omega) (by omega),
          Plan.dots_node_ne (by omega), Plan.alloc_node_ne (by omega)]
        exact hr
      have hchild : ((planEntries P.n sub ((P.alloc tDir).dots P.n cur)).node P.n).rounded = false := by
        rw [planEntries_node_self _ (by simp), Plan.dots]
        simp
      refine ends_bind (h.hostIalloc (by omega) (.inl rfl)) ?_
      rintro _ t ⟨rfl, ht⟩
      refine ht.dots hpos (by simp) (by omega) (by simp) ((Plan.le_planEntries P.n sub).trans hsub)
        (f := fun _ => do
          Xv6.addEntries P.n sub
          Xv6.fixSize P.n
          Xv6.iappend cur (hostDirent P.n name)
          Xv6.addEntries cur rest) ?_
      intro u hu
      refine ends_bind (ihs hu hpos (by simp) (by simp [Plan.dots]) (by simp; omega) hsub) ?_
      intro _ v hv
      refine ends_bind (hv.fixSize hpos (by simp; omega) (by omega) hchild) ?_
      intro _ w hw
      refine ends_bind (hw.iappend hi (by simp; omega) (by omega) hcur hrest) ?_
      intro _ z hz
      refine ihr hz hi (by simp; omega) ?_ (by simp; omega) hF
      rw [Plan.append_node_self]
      exact hcur

end Directories

/-! ## What a plan says of a tree -/

/-- The inodes from `n` on are those of the entries of directory `cur`. -/
def Laid (F : Plan) (cur : Nat) : Nat → Entries → Prop
  | _, .nil => True
  | n, .file _ chunks rest => F.node n = ⟨tFile, chunks.flatten, false⟩ ∧ Laid F cur (n + 1) rest
  | n, .dir _ sub rest =>
      F.node n = ⟨tDir, hostDirent n [46] ++ hostDirent cur [46, 46] ++
        direntBytes (sub.numbered (n + 1)), true⟩ ∧
          Laid F n (n + 1) sub ∧ Laid F cur (n + 1 + sub.count) rest

theorem planEntries_laid {F P : Plan} {cur : Nat} {es : Entries} (hcur : cur < P.n)
    (hF : ∀ j, P.n ≤ j → j < P.n + es.count → F.node j = (planEntries cur es P).node j) :
    Laid F cur P.n es := by
  induction es generalizing cur P with
  | nil => trivial
  | file name chunks rest ih =>
      simp only [Entries.count, planEntries] at hF
      refine ⟨?_, ?_⟩
      · rw [hF P.n le_rfl (by omega), planEntries_node_ne _ (by simp) (by omega),
          Plan.append_node_ne (by omega), Plan.chunks_node_self, Plan.alloc_node_self, List.nil_append]
      · have hn : P.n + 1 = (((P.alloc tFile).chunks P.n chunks).append cur (hostDirent P.n name)).n := by
          simp
        rw [hn]
        refine ih (P := ((P.alloc tFile).chunks P.n chunks).append cur (hostDirent P.n name))
          (by simp; omega) ?_
        intro j hlo hhi
        simp only [Plan.append_n, Plan.chunks_n, Plan.alloc_n] at hlo hhi
        exact hF j (by omega) (by omega)
  | dir name sub rest ihs ihr =>
      simp only [Entries.count, planEntries] at hF
      have hbelow : ∀ j, P.n ≤ j → j < P.n + 1 + sub.count →
          F.node j = ((planEntries P.n sub ((P.alloc tDir).dots P.n cur)).round P.n).node j := by
        intro j hlo hhi
        rw [hF j hlo (by omega), planEntries_node_ne _ (by simp; omega) (by omega),
          Plan.append_node_ne (by omega)]
      refine ⟨?_, ?_, ?_⟩
      · rw [hbelow P.n le_rfl (by omega), Plan.round_node_self, planEntries_node_self _ (by simp)]
        simp [Plan.dots, List.append_assoc]
      · refine ihs (P := (P.alloc tDir).dots P.n cur) (by simp) ?_
        intro j hlo hhi
        simp only [Plan.dots_n, Plan.alloc_n] at hlo hhi
        rw [hbelow j (by omega) (by omega), Plan.round_node_ne (by omega)]
      · have hn : P.n + 1 + sub.count = (((planEntries P.n sub ((P.alloc tDir).dots P.n cur)).round
            P.n).append cur (hostDirent P.n name)).n := by simp
        rw [hn]
        refine ihr (P := ((planEntries P.n sub ((P.alloc tDir).dots P.n cur)).round P.n).append cur
          (hostDirent P.n name)) (by simp; omega) ?_
        intro j hlo hhi
        simp only [Plan.append_n, Plan.round_n, planEntries_n, Plan.dots_n, Plan.alloc_n] at hlo hhi
        exact hF j (by omega) (by omega)

theorem planMain_n (root : Entries) : (planMain root).n = 2 + root.count := by
  simp [planMain]

theorem planMain_root (root : Entries) : (planMain root).node 1 =
    ⟨tDir, hostDirent 1 [46] ++ hostDirent 1 [46, 46] ++ direntBytes (root.numbered 2), true⟩ := by
  have hstart : (((Plan.mk 1 fun _ => ⟨0, [], false⟩).alloc tDir).dots 1 1).node 1 =
      ⟨tDir, hostDirent 1 [46] ++ hostDirent 1 [46, 46], false⟩ := by
    simp [Plan.dots, Plan.alloc]
  rw [planMain, Plan.round_node_self, planEntries_node_self _ (by simp), hstart]
  rfl

theorem planMain_laid (root : Entries) : Laid (planMain root) 1 2 root := by
  refine planEntries_laid (P := ((Plan.mk 1 fun _ => ⟨0, [], false⟩).alloc tDir).dots 1 1) (by simp) ?_
  intro j hlo _
  have : 2 ≤ j := hlo
  rw [planMain, Plan.round_node_ne (by omega)]

/-! ## The whole image -/

/-- The image after `mkfs`: zeroes but for the superblock. -/
def freshImage : Image where
  sect := Function.update (fun _ _ => 0) 1 (superSector 995 200 1024)
  len := 1024
  freeblock := 29
  usedblocks := 29
  freeinode := 1
  writes := []

/-- The plan without an inode. -/
def emptyPlan : Plan := ⟨1, fun _ => ⟨0, [], false⟩⟩

theorem zero_sectors (st : Image) (h : st.sect = fun _ _ => 0) {k : Nat} (hk : st.len = k) (n : Nat) :
    each (fun i => wsect i fun _ => 0) (List.range' k n) st = .ok ((), { st with len := k + n }) := by
  induction n generalizing st k with
  | zero =>
      subst hk
      rfl
  | succ n ih =>
      have hstep : wsect k (fun _ => 0) st = .ok ((), { st with len := k + 1 }) := by
        have hmax : max st.len (k + 1) = k + 1 := by omega
        have hsame : Function.update st.sect k (fun _ => 0) = st.sect := by
          rw [h]
          exact Function.update_eq_self (f := fun _ _ => (0 : UInt8)) k
        show Except.ok ((), _) = Except.ok ((), _)
        simp only [hmax, hsame]
      rw [List.range'_succ]
      simp only [each]
      have hrest : each (fun i => wsect i fun _ => 0) (List.range' (k + 1) n) { st with len := k + 1 } =
          .ok ((), { st with len := k + 1 + n }) := ih { st with len := k + 1 } h rfl
      rw [bind_of_ok hstep, hrest]
      simp only [Nat.add_assoc, Nat.add_comm 1]

theorem mkfs_ok : mkfs 995 200 1024 Image.blank = .ok ((), freshImage) := by
  have hused : 200 / ipb + 3 + (1024 / 4096 + 1) = 29 := by decide
  have hrange : List.range (995 + 29) = List.range' 0 1024 := List.range_eq_range'
  have hset : assign (fun s : Image => { s with usedblocks := 29, freeblock := 29 }) Image.blank =
      .ok ((), { Image.blank with usedblocks := 29, freeblock := 29 }) := rfl
  have hzero : each (fun i => wsect i fun _ => 0) (List.range' 0 1024)
      { Image.blank with usedblocks := 29, freeblock := 29 } =
        .ok ((), { Image.blank with usedblocks := 29, freeblock := 29, len := 0 + 1024 }) :=
    zero_sectors { Image.blank with usedblocks := 29, freeblock := 29 } rfl rfl 1024
  unfold mkfs
  simp only [hused]
  rw [bind_of_ok hset, if_neg (by decide), hrange, bind_of_ok hzero]
  rfl

theorem freshImage_sect (b : Nat) :
    freshImage.sect b = Function.update (fun _ _ => 0) 1 (superSector 995 200 1024) b := rfl

theorem freshImage_super : Superblock.decode (freshImage.sect 1) = imageSb := by
  have h0 : (superSector 995 200 1024).word 0 = 1024 := by
    rw [superSector, word_setWord_ne (by decide), word_setWord_ne (by decide), word_setWord_self]
    rfl
  have h2 : (superSector 995 200 1024).word 2 = 200 := by
    rw [superSector, word_setWord_self]
    rfl
  rw [freshImage_sect, Function.update_self, Superblock.decode, h0, h2]
  rfl

theorem freshImage_dnode {i : Nat} (hi : i < 200) : (dnode freshImage.disk i).type = 0 := by
  have hne : iblock i ≠ 1 := by
    simp only [iblock, ipb]
    omega
  rw [dnode_disk (by omega), dnode, freshImage_sect, Function.update_of_ne hne]
  rfl

theorem freshImage_built : Built freshImage emptyPlan := by
  have hrefs : ∀ r, refs imageSb freshImage.disk (dnode freshImage.disk) r = 0 := by
    intro r
    exact if_neg fun hc => hc.2 (freshImage_dnode hc.1)
  refine ⟨⟨rfl, le_rfl, rfl, fun _ hw => absurd hw List.not_mem_nil⟩, by decide, rfl,
    fun _ hw => absurd hw List.not_mem_nil, le_rfl, by decide, ⟨by decide, ?_⟩,
    fun i hi _ => freshImage_dnode hi, rfl, ?_⟩
  · refine ⟨?_, ?_, ?_, ?_, ?_⟩
    · rw [disk_of_ne (by decide)]
      exact freshImage_super
    · intro b hb
      rw [marked_disk hb]
      refine ⟨.inl, ?_⟩
      rintro (hlow | ⟨k, hk⟩)
      · exact hlow
      · rw [hrefs] at hk
        rw [← hk]
        decide
    · intro k _ hk
      exact absurd (hrefs k) hk
    · intro k hk
      exact absurd (hrefs k) hk
    · intro b hlo _ _ o _
      rw [imageSb_metaBlocks] at hlo
      rw [disk_of_ne (by omega), freshImage_sect, Function.update_of_ne (by omega)]
  · intro i hi hn
    have : i < 1 := hn
    omega

theorem Built.addDir {st : Image} {P F : Plan} {cur parent : Nat} {es : Entries} (h : Built st P)
    (hi : 1 ≤ cur) (hn : cur < P.n) (hr : (P.node cur).rounded = false) (hcount : P.n + es.count ≤ 200)
    (hF : ((planEntries cur es (P.dots cur parent)).round cur).Le F) :
    Ends (Xv6.addDir cur parent es) st (¬ F.Fits) fun _ t =>
      Built t ((planEntries cur es (P.dots cur parent)).round cur) := by
  have hsub := Plan.le_round.trans hF
  have hdots : ((P.dots cur parent).node cur).rounded = false := by
    simpa [Plan.dots] using hr
  refine h.dots hi hn (by omega) hr ((Plan.le_planEntries cur es).trans hsub)
    (f := fun _ => do
      Xv6.addEntries cur es
      Xv6.fixSize cur) ?_
  intro t ht
  refine ends_bind (ht.addEntries hi hn hdots hcount hsub) ?_
  intro _ u hu
  refine hu.fixSize hi (by simp; omega) (by omega) ?_
  rw [planEntries_node_self (P := P.dots cur parent) _ hn]
  exact hdots

/-- The bitmap is written. -/
theorem Built.hostBalloc {st : Image} {P : Plan} (h : Built st P) {E : Prop} :
    Ends (Xv6.hostBalloc st.usedblocks) st E fun _ t => Built t P ∧ t.sect = t.disk := by
  have hhigh := h.high
  have hmax : max st.len (200 / ipb + 3 + 1) = st.len := by
    rw [h.underway.len]
    decide
  have hused := h.underway.used
  have hbits : Function.update st.sect 28 (firstBits st.usedblocks) = st.disk := by
    rw [hused]
    rfl
  have hrun : Xv6.hostBalloc st.usedblocks st = .ok ((), { st with sect := st.disk }) := by
    unfold Xv6.hostBalloc
    rw [if_pos (by omega)]
    show Except.ok ((), { st with
      sect := Function.update st.sect 28 (firstBits st.usedblocks),
      len := max st.len (200 / ipb + 3 + 1) }) = _
    rw [hbits, hmax]
  have hdisk : ({ st with sect := st.disk } : Image).disk = st.disk := Function.update_idem ..
  refine ends_of_ok hrun ⟨⟨⟨h.underway.len, h.underway.low, h.underway.used, h.underway.data⟩, h.high,
    h.inodes, h.numbers, h.pos, h.few, ?_, ?_, h.blocks, ?_⟩, hdisk.symm⟩
  · rw [hdisk]
    exact h.consistent
  · rw [hdisk]
    exact h.unused
  · rw [hdisk]
    exact h.node

/-- **Simulation of `mkfs`.**  For a tree of at most 199 inodes the image is built according to the plan
of the tree, or the plan does not fit. -/
theorem mkfsMain_ends {root : Entries} (hcount : 1 + root.count ≤ 199) :
    Ends (mkfsMain root) Image.blank (¬ (planMain root).Fits) fun _ st =>
      Built st (planMain root) ∧ st.sect = st.disk := by
  unfold mkfsMain
  refine ends_step mkfs_ok ?_
  refine ends_bind (freshImage_built.hostIalloc (by decide) (.inl rfl)) ?_
  rintro _ t ⟨rfl, ht⟩
  have hroot : emptyPlan.n = 1 := rfl
  rw [hroot, if_neg (not_not.mpr rfl)]
  refine ends_bind (ht.addDir (F := planMain root) le_rfl (by decide) rfl ?_ (Plan.Le.refl _)) ?_
  · show 2 + root.count ≤ 200
    omega
  · intro _ u hu
    refine ends_step rfl ?_
    exact hu.hostBalloc

end Xv6
end LfsXv6
