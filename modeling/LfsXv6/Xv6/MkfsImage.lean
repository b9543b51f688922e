import LfsXv6.Xv6.Contents
import LfsXv6.Xv6.Mkfs

/-!
# MkfsImage — `iappend` builds what the kernel's `writei` would have built

`mkfs` writes the bitmap last.  `Image.disk` is the image as it would be if the bitmap were written
now; on this disk, taking the next block is a step of the kernel's allocator, and a turn of `iappend`
is a turn of `writei`.  So the accounting of blocks and the contents of files are carried over from the
kernel's side.
-/

namespace LfsXv6
namespace Xv6

open Lib Prog

/-- The superblock of an image. -/
def imageSb : Superblock := ⟨1024, 200⟩

@[simp] theorem imageSb_ninodes : imageSb.ninodes.toNat = 200 := rfl

@[simp] theorem imageSb_cap : imageSb.cap = 4096 := rfl

@[simp] theorem imageSb_metaBlocks : imageSb.metaBlocks = 29 := rfl

theorem bblock_image {b : Nat} (h : b < 4096) : bblock b imageSb.ninodes.toNat = 28 := by
  simp only [bblock, imageSb_ninodes, bpb, ipb]
  omega

/-- The bitmap with the first `n` bits set, as `balloc` makes it. -/
def firstBits (n : Nat) : Sector := (List.range n).foldl (fun buf i => buf.setBit i) fun _ => 0

theorem firstBits_succ (n : Nat) : firstBits (n + 1) = (firstBits n).setBit n := by
  rw [firstBits, List.range_succ, List.foldl_append]
  rfl

theorem bit_firstBits (n b : Nat) : (firstBits n).bit b = decide (b < n) := by
  induction n with
  | zero => simp [firstBits, Sector.bit]
  | succ n ih =>
      rw [firstBits_succ]
      by_cases hb : b = n
      · rw [hb, bit_setBit_self]
        simp
      · rw [bit_setBit_ne hb, ih]
        simp only [decide_eq_decide]
        omega

namespace Image

/-- The image with the bitmap as it is to become. -/
def disk (st : Image) : Nat → Sector := Function.update st.sect 28 (firstBits st.freeblock)

/-- After `freeblock++` and `usedblocks++`. -/
def take (st : Image) : Image :=
  { st with freeblock := st.freeblock + 1, usedblocks := st.usedblocks + 1 }

/-- After a block has been written. -/
def wrote (st : Image) (sec : Nat) (d : Sector) : Image :=
  { st with sect := Function.update st.sect sec d, writes := .data sec :: st.writes }

end Image

/-- The counters and the writes of an image while it is built; inside a turn of `iappend` the block
counter may be past the end. -/
structure Underway (st : Image) : Prop where
  len : st.len = 1024
  low : 29 ≤ st.freeblock
  used : st.usedblocks = st.freeblock
  data : ∀ b, .data b ∈ st.writes → 29 ≤ b ∧ b < 1024

section Steps

variable {st : Image} {sec : Nat} {d : Sector} {p : Place} {ip : Inode}

theorem disk_of_ne (h : sec ≠ 28) : st.disk sec = st.sect sec := Function.update_of_ne h _ _

theorem marked_disk {b : Nat} (h : b < 4096) : marked imageSb st.disk b ↔ b < st.freeblock := by
  have hmod : b % bpb = b := Nat.mod_eq_of_lt h
  rw [marked, bblock_image h, Image.disk, Function.update_self, hmod, bit_firstBits]
  exact decide_eq_true_iff

/-- The next block is taken: a step of the kernel's `balloc`. -/
theorem take_disk (h : st.freeblock < 4096) : st.take.disk = mark imageSb st.disk st.freeblock := by
  have hmod : st.freeblock % bpb = st.freeblock := Nat.mod_eq_of_lt h
  rw [mark, bblock_image h, hmod]
  simp only [Image.disk, Image.take, Function.update_self, Function.update_idem, firstBits_succ]

theorem wrote_disk (h : sec ≠ 28) : (st.wrote sec d).disk = Function.update st.disk sec d :=
  Function.update_comm h _ _ _

theorem rsect_ok (h : sec < st.len) : rsect sec st = .ok (st.sect sec, st) := if_pos h

theorem wsect_record_ok {β : Type} {x : Prog Image β} (h : sec < st.len) :
    (do wsect sec d
        record (.data sec)
        x) st = x (st.wrote sec d) := by
  have hlen : max st.len (sec + 1) = st.len := by omega
  show x _ = x _
  simp only [Image.wrote, hlen]

theorem takeBlock_ok : takeBlock st = .ok (UInt32.ofNat st.freeblock, st.take) := rfl

theorem Underway.take (h : Underway st) : Underway st.take :=
  ⟨h.len, Nat.le_succ_of_le h.low, congrArg (· + 1) h.used, h.data⟩

theorem Underway.wrote (h : Underway st) (hlo : 29 ≤ sec) (hhi : sec < 1024) :
    Underway (st.wrote sec d) := by
  refine ⟨h.len, h.low, h.used, ?_⟩
  intro b hb
  rcases List.mem_cons.mp hb with heq | hb
  · obtain rfl := ImageWrite.data.inj heq
    exact ⟨hlo, hhi⟩
  · exact h.data b hb

theorem ofNat_freeblock (h : st.freeblock < 4096) :
    (UInt32.ofNat st.freeblock).toNat = st.freeblock := by
  rw [UInt32.toNat_ofNat']
  omega

/-- The block that is taken is put into an empty place. -/
theorem take_grows (h : Holding imageSb st.disk ip) (hlt : st.freeblock < 4096)
    (hp : ip.addr st.disk p = 0) (hentry : ∀ j, p = .entry j → ip.indirect ≠ 0) :
    Grows imageSb st.disk ip (putWord st.take.disk ip (UInt32.ofNat st.freeblock) p).1
        (putWord st.take.disk ip (UInt32.ofNat st.freeblock) p).2 ∧
      ∀ q, (putWord st.take.disk ip (UInt32.ofNat st.freeblock) p).2.addr
        (putWord st.take.disk ip (UInt32.ofNat st.freeblock) p).1 q =
          if q = p then st.freeblock else ip.addr st.disk q := by
  have hval := ofNat_freeblock hlt
  have hcap : (UInt32.ofNat st.freeblock).toNat < imageSb.cap := by
    rw [hval]
    exact hlt
  have hsmall : (UInt32.ofNat st.freeblock).toNat < 2 ^ 24 := by omega
  have hfree : ¬ marked imageSb st.disk (UInt32.ofNat st.freeblock).toNat := by
    rw [hval, marked_disk hlt]
    omega
  have hdisk : mark imageSb st.disk (UInt32.ofNat st.freeblock).toNat = st.take.disk := by
    rw [hval, take_disk hlt]
  have hgrow := (h.grow hcap hsmall hfree hp hentry).1
  have haddr := h.grow_addr hcap hsmall hfree hp hentry
  rw [hdisk] at hgrow haddr
  rw [hval] at haddr
  exact ⟨hgrow, haddr⟩

end Steps

/-! ## A turn of `iappend` -/

section Turns

variable {st : Image} {ip : Inode}

/-- How many blocks the turn for block `bn` takes. -/
def blocksTaken (disk : Nat → Sector) (ip : Inode) (bn : Nat) : Nat :=
  (if ip.addr disk (blockPlace bn) = 0 then 1 else 0) +
    (if ndirect ≤ bn ∧ ip.indirect = 0 then 1 else 0)

/-- What `appendBlock` does: the place of block `bn` is filled, and that of the indirect block if it is
needed. -/
structure Appended (st : Image) (ip : Inode) (bn : Nat) (t : Image) (ip' : Inode) : Prop where
  grows : Grows imageSb st.disk ip t.disk ip'
  underway : Underway t
  inode : t.freeinode = st.freeinode
  numbers : ∀ i, .inode i ∈ t.writes → .inode i ∈ st.writes
  block : t.freeblock = st.freeblock + blocksTaken st.disk ip bn
  addr : ∀ q, ip'.addr t.disk q ≠ 0 ↔
    ip.addr st.disk q ≠ 0 ∨ q = blockPlace bn ∨ (q = .indirect ∧ ndirect ≤ bn)
  last : t.freeblock = st.freeblock ∨ t.freeblock = ip'.addr t.disk (blockPlace bn) + 1

theorem inside_disk (h : Holding imageSb st.disk ip) {p : Place} (hp : ip.addr st.disk p ≠ 0) :
    29 ≤ ip.addr st.disk p ∧ ip.addr st.disk p < st.freeblock := by
  have hin := h.inside hp
  have hmark : marked imageSb st.disk (ip.addr st.disk p) ↔ ip.addr st.disk p < st.freeblock :=
    marked_disk hin.2
  refine ⟨hin.1, ?_⟩
  rw [← hmark]
  refine (h.ledger.bits _ hin.2).mpr (.inr ⟨(ip.inum, p), ?_⟩)
  exact h.refs_self p

/-- The place `p` gets the next block, unless it has one. -/
structure Took (st : Image) (ip : Inode) (p : Place) (t : Image) (ip' : Inode) : Prop where
  grows : Grows imageSb st.disk ip t.disk ip'
  underway : Underway t
  inode : t.freeinode = st.freeinode
  numbers : ∀ i, .inode i ∈ t.writes → .inode i ∈ st.writes
  block : t.freeblock = st.freeblock + if ip.addr st.disk p = 0 then 1 else 0
  addr : ∀ q, ip'.addr t.disk q =
    if q = p ∧ ip.addr st.disk p = 0 then st.freeblock else ip.addr st.disk q

namespace Took

variable {p : Place} {t : Image} {ip' : Inode}

theorem addr_ne_zero (h : Took st ip p t ip') (hu : Underway st) (q : Place) :
    ip'.addr t.disk q ≠ 0 ↔ ip.addr st.disk q ≠ 0 ∨ q = p := by
  have hlow := hu.low
  rw [h.addr]
  split <;> rename_i hq
  · exact iff_of_true (by omega) (.inr hq.1)
  · refine ⟨.inl, ?_⟩
    rintro (hne | rfl)
    · exact hne
    · exact fun h0 => hq ⟨rfl, h0⟩

theorem last (h : Took st ip p t ip') :
    t.freeblock = st.freeblock ∨ t.freeblock = ip'.addr t.disk p + 1 := by
  rw [h.block, h.addr]
  by_cases h0 : ip.addr st.disk p = 0
  · exact .inr (by rw [if_pos h0, if_pos ⟨rfl, h0⟩])
  · exact .inl (by rw [if_neg h0]; rfl)

end Took

/-- A slot of `addrs` is filled. -/
theorem fillSlot_ok (h : Holding imageSb st.disk ip) (hu : Underway st) (hlt : st.freeblock < 4096)
    (ht : ip.type ≠ tChecked) (k : Fin 13) :
    ∃ t ip', fillSlot ip k st = .ok (ip', t) ∧ Took st ip (.slot k) t ip' := by
  have hslot : ip.addr st.disk (.slot k) = (ip.addrs k).toNat := by
    rw [Dinode.addr, addrOf, if_neg ht]
    rfl
  unfold fillSlot
  by_cases h0 : ip.addrs k = 0
  · have hp : ip.addr st.disk (.slot k) = 0 := by
      rw [hslot, h0]
      rfl
    rw [if_pos h0]
    obtain ⟨hgrow, haddr⟩ := take_grows h hlt hp fun j hj => absurd hj (by simp)
    refine ⟨st.take, _, rfl, hgrow, hu.take, rfl, fun _ hm => hm, by rw [if_pos hp]; rfl, ?_⟩
    intro q
    simp only [hp, and_true]
    exact haddr q
  · have hp : ip.addr st.disk (.slot k) ≠ 0 := by
      rw [hslot]
      exact fun hc => h0 (UInt32.toNat_inj.mp hc)
    rw [if_neg h0]
    refine ⟨st, ip, rfl, Grows.refl h, hu, rfl, fun _ hm => hm, by rw [if_neg hp]; rfl, ?_⟩
    intro q
    rw [if_neg fun hc => hp hc.2]

/-- An entry of the indirect block is filled.  That stops only where the indirect block itself lies behind
the image. -/
theorem takeEntry_ends (h : Holding imageSb st.disk ip) (hu : Underway st) (hlt : st.freeblock < 4096)
    (ht : ip.type ≠ tChecked) {bn : Nat} (hbn : bn < maxfile) (hd : ¬ bn < ndirect)
    (hind : ip.indirect ≠ 0) :
    Ends (do
      let indirect ← rsect (ip.addrs 12).toNat
      if indirect.word (bn - ndirect) = 0 then do
        let x ← takeBlock
        wsect (ip.addrs 12).toNat (indirect.setWord (bn - ndirect) x)
        record (.data (ip.addrs 12).toNat)
        return (x, ip)
      else return (indirect.word (bn - ndirect), ip)) st (1024 < st.freeblock) fun r t =>
        Took st ip (blockPlace bn) t r.2 ∧ r.1.toNat = r.2.addr t.disk (blockPlace bn) := by
  have hplace : blockPlace bn = .entry (Fin.ofNat 128 (bn - ndirect)) := by rw [blockPlace, dif_neg hd]
  have hj : ((Fin.ofNat 128 (bn - ndirect) : Fin 128) : Nat) = bn - ndirect := by
    simp only [maxfile, ndirect] at hbn hd ⊢
    simp only [Fin.ofNat]
    omega
  have hnum : (ip.addrs 12).toNat = ip.indirect := by rw [Dinode.indirect, addrOf, if_neg ht]
  have hin := inside_disk h (p := .indirect) hind
  rw [Dinode.addr_indirect] at hin
  rw [hnum]
  by_cases hsec : ip.indirect < 1024
  swap
  · refine .inr ⟨by omega, "read", bind_of_error ?_⟩
    rw [rsect, if_neg (by rw [hu.len]; exact hsec)]
  have hread : st.sect ip.indirect = st.disk ip.indirect := (disk_of_ne (by omega)).symm
  refine ends_step (rsect_ok (by rw [hu.len]; exact hsec)) ?_
  have hword : ip.addr st.disk (blockPlace bn) =
      ((st.sect ip.indirect).word (bn - ndirect)).toNat := by
    rw [Dinode.addr, addrOf, if_neg ht, hplace, hread]
    simp only [Dinode.word, if_neg hind, hj]
  by_cases h0 : (st.sect ip.indirect).word (bn - ndirect) = 0
  · -- the entry gets a block of its own
    have hp : ip.addr st.disk (blockPlace bn) = 0 := by
      rw [hword, h0]
      rfl
    obtain ⟨hgrow, hadd⟩ := take_grows h hlt hp fun _ _ => hind
    have hput : putWord st.take.disk ip (UInt32.ofNat st.freeblock) (blockPlace bn) =
        ((st.take.wrote ip.indirect ((st.sect ip.indirect).setWord (bn - ndirect)
          (UInt32.ofNat st.freeblock))).disk, ip) := by
      rw [wrote_disk (by omega), hplace, putWord, hj]
      have hsame : st.take.disk ip.indirect = st.sect ip.indirect := disk_of_ne (by omega)
      rw [hsame]
    rw [hput] at hgrow hadd
    simp only [h0, if_true]
    refine ends_step takeBlock_ok ?_
    have hwrite : ∀ {β : Type} {x : Prog Image β}, (do
        wsect ip.indirect ((st.sect ip.indirect).setWord (bn - ndirect) (UInt32.ofNat st.freeblock))
        record (.data ip.indirect)
        x) st.take = x (st.take.wrote ip.indirect ((st.sect ip.indirect).setWord (bn - ndirect)
          (UInt32.ofNat st.freeblock))) := wsect_record_ok (by rw [hu.take.len]; exact hsec)
    refine ends_of_ok hwrite ⟨⟨hgrow, hu.take.wrote hin.1 hsec, rfl, ?_, ?_, ?_⟩, ?_⟩
    · intro i hm
      rcases List.mem_cons.mp hm with heq | hm
      · cases heq
      · exact hm
    · rw [if_pos hp]
      rfl
    · intro q
      simp only [hp, and_true]
      exact hadd q
    · rw [hadd, if_pos rfl, ofNat_freeblock hlt]
  · have hp : ip.addr st.disk (blockPlace bn) ≠ 0 := by
      rw [hword]
      exact fun hc => h0 (UInt32.toNat_inj.mp hc)
    simp only [h0, if_false]
    refine ends_pure ⟨⟨Grows.refl h, hu, rfl, fun _ hm => hm, by rw [if_neg hp]; rfl, ?_⟩, hword.symm⟩
    intro q
    rw [if_neg fun hc => hp hc.2]

/-- The turn of a direct block fills its slot. -/
theorem Took.appended {bn : Nat} (hd : bn < ndirect) {t : Image} {ip' : Inode} (hu : Underway st)
    (h : Took st ip (blockPlace bn) t ip') : Appended st ip bn t ip' := by
  refine ⟨h.grows, h.underway, h.inode, h.numbers, ?_, ?_, h.last⟩
  · rw [h.block, blocksTaken, if_neg (c := ndirect ≤ bn ∧ ip.indirect = 0) (by omega)]
    rfl
  · intro q
    rw [h.addr_ne_zero hu]
    constructor
    · rintro (hne | heq)
      · exact .inl hne
      · exact .inr (.inl heq)
    · rintro (hne | heq | hc)
      · exact .inl hne
      · exact .inr heq
      · omega

/-- The turn of a block behind the direct ones fills the slot of the indirect block, and its entry. -/
theorem Took.appended_indirect {bn : Nat} (hd : ¬ bn < ndirect) {t u : Image} {ip' ip'' : Inode}
    (hu : Underway st) (h : Took st ip .indirect t ip') (hthen : Took t ip' (blockPlace bn) u ip'') :
    Appended st ip bn u ip'' := by
  have hplace : blockPlace bn = .entry (Fin.ofNat 128 (bn - ndirect)) := by rw [blockPlace, dif_neg hd]
  have hentry : ip'.addr t.disk (blockPlace bn) = ip.addr st.disk (blockPlace bn) := by
    rw [h.addr, if_neg]
    rw [hplace]
    simp
  refine ⟨h.grows.trans hthen.grows, hthen.underway, hthen.inode.trans h.inode,
    fun i hm => h.numbers i (hthen.numbers i hm), ?_, ?_, ?_⟩
  · have hiff : (ndirect ≤ bn ∧ ip.indirect = 0) ↔ ip.addr st.disk .indirect = 0 :=
      ⟨fun hc => hc.2, fun hc => ⟨Nat.le_of_not_lt hd, hc⟩⟩
    simp only [hthen.block, h.block, hentry, blocksTaken, hiff]
    omega
  · intro q
    rw [hthen.addr_ne_zero h.underway, h.addr_ne_zero hu]
    constructor
    · rintro ((hne | heq) | heq)
      · exact .inl hne
      · exact .inr (.inr ⟨heq, Nat.le_of_not_lt hd⟩)
      · exact .inr (.inl heq)
    · rintro (hne | heq | hc)
      · exact .inl (.inl hne)
      · exact .inr heq
      · exact .inl (.inr hc.1)
  · rcases hthen.last with hsame | hnew
    · -- an entry is there only with the indirect block
      by_cases hold : ip.addr st.disk .indirect = 0
      · have hnone : ip.indirect = 0 := hold
        have hzero : ip'.addr t.disk (blockPlace bn) = 0 := by
          rw [hentry, hplace]
          simp [Dinode.addr, Dinode.word, hnone]
        have hblock := hthen.block
        rw [if_pos hzero] at hblock
        omega
      · exact .inl (by rw [hsame, h.block, if_neg hold]; rfl)
    · exact .inr hnew

/-- The first half of a turn: it stops only where blocks run out. -/
theorem appendBlock_ends (h : Holding imageSb st.disk ip) (hu : Underway st)
    (hlt : st.freeblock + 1 < 4096) (ht : ip.type ≠ tChecked) {bn : Nat} (hbn : bn < maxfile) :
    Ends (appendBlock ip bn) st (1024 < st.freeblock + blocksTaken st.disk ip bn) fun r t =>
      Appended st ip bn t r.2 ∧ r.1.toNat = r.2.addr t.disk (blockPlace bn) := by
  unfold appendBlock
  by_cases hd : bn < ndirect
  · rw [dif_pos hd]
    obtain ⟨t, ip', hrun, htook⟩ := fillSlot_ok h hu (by omega) ht ⟨bn, direct_lt hd⟩
    have hplace : blockPlace bn = .slot ⟨bn, direct_lt hd⟩ := by rw [blockPlace, dif_pos hd]
    have ht' : ip'.type ≠ tChecked := by rwa [htook.grows.type_eq]
    rw [← hplace] at htook
    refine ends_step hrun (ends_pure ⟨htook.appended hd hu, ?_⟩)
    rw [hplace, Dinode.addr, addrOf, if_neg ht']
    rfl
  · rw [dif_neg hd]
    obtain ⟨t, ip', hrun, htook⟩ := fillSlot_ok h hu (by omega) ht 12
    have ht' : ip'.type ≠ tChecked := by rwa [htook.grows.type_eq]
    have hind : ip'.indirect ≠ 0 := (htook.addr_ne_zero hu .indirect).mpr (.inr rfl)
    have hblock := htook.block
    have hle : t.freeblock ≤ st.freeblock + blocksTaken st.disk ip bn := by
      have hiff : (ndirect ≤ bn ∧ ip.indirect = 0) ↔ ip.addr st.disk (.slot 12) = 0 :=
        ⟨fun hc => hc.2, fun hc => ⟨Nat.le_of_not_lt hd, hc⟩⟩
      simp only [hblock, blocksTaken, hiff]
      omega
    refine ends_step hrun ((takeEntry_ends htook.grows.holding htook.underway ?_ ht' hbn hd hind).mono
      (fun hfull => hfull.trans_le hle) ?_)
    · rw [hblock]
      split <;> omega
    · rintro r u ⟨hthen, hr⟩
      exact ⟨htook.appended_indirect hd hu hthen, hr⟩

end Turns

/-! ## The loop of `iappend` -/

/-- The blocks of a file of `len` bytes, the indirect block included. -/
def blocksFor (len : Nat) : Nat := (len + (bsize - 1)) / bsize + if ndirect * bsize < len then 1 else 0

@[simp] theorem blocksFor_zero : blocksFor 0 = 0 := by
  simp [blocksFor, bsize]

theorem blocksFor_mono {a b : Nat} (h : a ≤ b) : blocksFor a ≤ blocksFor b := by
  simp only [blocksFor, bsize, ndirect]
  split <;> split <;> omega

/-- Just the blocks of the first `len` bytes are there. -/
structure Filled (disk : Nat → Sector) (n : Dinode) (len : Nat) : Prop where
  block : ∀ bn, bn < maxfile → (n.addr disk (blockPlace bn) ≠ 0 ↔ bn * bsize < len)
  indirect : n.indirect ≠ 0 ↔ ndirect * bsize < len

/-- `bytes` have been appended to `ip₀`, which had `lo` bytes; the other inodes are as they were. -/
structure Appending (st₀ : Image) (ip₀ : Inode) (lo : Nat) (bytes : List UInt8) (st : Image)
    (ip : Inode) : Prop where
  holding : Holding imageSb st.disk ip
  same : ip = { ip₀ with addrs := ip.addrs }
  underway : Underway st
  high : st.freeblock ≤ 1024
  inode : st.freeinode = st₀.freeinode
  numbers : ∀ i, .inode i ∈ st.writes → .inode i ∈ st₀.writes
  blocks : st.freeblock + blocksFor lo = st₀.freeblock + blocksFor (lo + bytes.length)
  short : lo + bytes.length ≤ maxfile * bsize
  stored : Stored st₀.disk ip₀ lo bytes st.disk ip
  filled : Filled st.disk ip.toDinode (lo + bytes.length)
  others : ∀ j, j < 200 → dnode st.disk j = dnode st₀.disk j
  files : ∀ j, j < 200 → j ≠ ip₀.inum → (dnode st₀.disk j).type ≠ 0 →
    SameFile st₀.disk st.disk (dnode st₀.disk j)

namespace Appending

variable {st₀ st : Image} {ip₀ ip : Inode} {lo cur : Nat} {bytes chunk : List UInt8}

theorem taken (h : Filled st.disk ip.toDinode cur) (hbn : cur / bsize < maxfile) {m : Nat} (hm : 0 < m)
    (hfit : cur % bsize + m ≤ bsize) :
    blocksFor cur + blocksTaken st.disk ip (cur / bsize) = blocksFor (cur + m) := by
  have hblock : ip.addr st.disk (blockPlace (cur / bsize)) = 0 ↔ cur % bsize = 0 := by
    have := h.block _ hbn
    simp only [bsize] at this ⊢
    omega
  have hind : (ndirect ≤ cur / bsize ∧ ip.indirect = 0) ↔ cur = ndirect * bsize := by
    have := h.indirect
    simp only [ne_eq, bsize, ndirect] at this ⊢
    omega
  simp only [blocksTaken, hblock, hind, blocksFor, bsize, ndirect] at hfit ⊢
  split <;> split <;> split <;> split <;> omega

/-- One turn, and then the rest of the loop. -/
theorem turn {β : Type} {E : Prop} {R : β → Image → Prop} {f : Inode → Prog Image β}
    (h : Appending st₀ ip₀ lo bytes st ip) (ht : ip₀.type ≠ tChecked) (hcur : cur = lo + bytes.length)
    (hbn : cur / bsize < maxfile) (hpos : 0 < chunk.length) (hfit : cur % bsize + chunk.length ≤ bsize)
    (hE : 1024 + blocksFor lo < st₀.freeblock + blocksFor (cur + chunk.length) → E)
    (hf : ∀ t ip', Appending st₀ ip₀ lo (bytes ++ chunk) t ip' → Ends (f ip') t E R) :
    Ends (do
      let (x, ip) ← appendBlock ip (cur / bsize)
      let buf ← rsect x.toNat
      wsect x.toNat (buf.store (cur % bsize) chunk)
      record (.data x.toNat)
      f ip) st E R := by
  have htype : ip.type ≠ tChecked := by
    rw [h.same]
    exact ht
  have hfilled := h.filled
  rw [← hcur] at hfilled
  have htaken := taken hfilled hbn hpos hfit
  have hblocks := h.blocks
  have hhigh := h.high
  rw [← hcur] at hblocks
  refine ends_bind ((appendBlock_ends h.holding h.underway (by omega) htype hbn).mono
    (fun hover => hE (by omega)) fun _ _ hr => hr) ?_
  rintro ⟨x, ip₁⟩ t ⟨happ, hx⟩
  simp only at happ hx
  have hne : ip₁.addr t.disk (blockPlace (cur / bsize)) ≠ 0 := (happ.addr _).mpr (.inr (.inl rfl))
  have hin := inside_disk happ.grows.holding hne
  have hcount := happ.block
  simp only [hx]
  by_cases hsec : ip₁.addr t.disk (blockPlace (cur / bsize)) < 1024
  swap
  · refine .inr ⟨hE (by omega), "read", bind_of_error ?_⟩
    rw [rsect, if_neg (by rw [happ.underway.len]; exact hsec)]
  refine ends_step (rsect_ok (by rw [happ.underway.len]; exact hsec)) ?_
  have hread : t.disk (ip₁.addr t.disk (blockPlace (cur / bsize))) =
      t.sect (ip₁.addr t.disk (blockPlace (cur / bsize))) := disk_of_ne (by omega)
  unfold Ends
  rw [wsect_record_ok (by rw [happ.underway.len]; exact hsec), ← hread]
  have hp := blockPlace_ne_indirect (cur / bsize)
  have hdisk : (t.wrote (ip₁.addr t.disk (blockPlace (cur / bsize)))
      ((t.disk (ip₁.addr t.disk (blockPlace (cur / bsize)))).store (cur % bsize) chunk)).disk =
        Function.update t.disk (ip₁.addr t.disk (blockPlace (cur / bsize)))
          ((t.disk (ip₁.addr t.disk (blockPlace (cur / bsize)))).store (cur % bsize) chunk) :=
    wrote_disk (by omega)
  obtain ⟨hhold, hwords⟩ := happ.grows.holding.write_block hp hne
    ((t.disk (ip₁.addr t.disk (blockPlace (cur / bsize)))).store (cur % bsize) chunk)
  have hpos' := hne
  rw [← Dinode.addr_congr (hwords _)] at hpos'
  have hturn : Turn imageSb st.disk ip (blockPlace (cur / bsize)) (cur % bsize) chunk _ ip₁ :=
    Turn.of_steps hp happ.grows hne
    (hhold.rechecked hp hpos' (by rw [if_neg (by rwa [happ.grows.type_eq])]))
  have haddr : ∀ q, ip₁.addr (Function.update t.disk (ip₁.addr t.disk (blockPlace (cur / bsize)))
      ((t.disk (ip₁.addr t.disk (blockPlace (cur / bsize)))).store (cur % bsize) chunk)) q =
        ip₁.addr t.disk q := fun q => Dinode.addr_congr (hwords q)
  rw [← hdisk] at hhold hturn haddr
  refine hf _ _ ⟨hhold, ?_, happ.underway.wrote hin.1 hsec, ?_, happ.inode.trans h.inode, ?_, ?_, ?_, ?_,
    ?_, ?_, ?_⟩
  · rw [happ.grows.same, h.same]
  · have hlast := happ.last
    show t.freeblock ≤ 1024
    omega
  · intro i hi
    rcases List.mem_cons.mp hi with heq | hi
    · cases heq
    · exact h.numbers i (happ.numbers i hi)
  · show t.freeblock + blocksFor lo = _
    rw [List.length_append, ← Nat.add_assoc, ← hcur]
    omega
  · rw [List.length_append, ← Nat.add_assoc, ← hcur]
    simp only [maxfile, bsize] at hbn hfit ⊢
    omega
  · exact h.stored.turn hcur hbn hpos hfit hturn
  · have hlen : lo + (bytes ++ chunk).length = cur + chunk.length := by
      rw [List.length_append, ← Nat.add_assoc, ← hcur]
    rw [hlen]
    constructor
    · intro bn hb
      have hold := hfilled.block bn hb
      have hsame : blockPlace bn = blockPlace (cur / bsize) ↔ bn = cur / bsize :=
        ⟨blockPlace_inj hb hbn, fun heq => by rw [heq]⟩
      rw [haddr, happ.addr, hold, hsame]
      have hnot := blockPlace_ne_indirect bn
      simp only [hnot, false_and, or_false]
      simp only [bsize] at hfit ⊢
      omega
    · have hold := hfilled.indirect
      have hnew := happ.addr .indirect
      have hnot := (blockPlace_ne_indirect (cur / bsize)).symm
      have hind : ip₁.indirect ≠ 0 ↔ ip.indirect ≠ 0 ∨ ndirect ≤ cur / bsize := by
        simpa only [hnot, false_or, true_and, Dinode.addr_indirect] using hnew
      rw [hind, hold]
      simp only [bsize, ndirect] at hfit ⊢
      omega
  · intro j hj
    rw [hturn.dnode hj, h.others j hj]
  · intro j hj hji hjt
    have hturnj := hturn.sameFile hj (by rw [h.same]; exact hji) (by rwa [h.others j hj])
    rw [h.others j hj] at hturnj
    exact (h.files j hj hji hjt).trans hturnj

theorem loop {fuel : Nat} (h : Appending st₀ ip₀ lo bytes st ip) (rest : List UInt8)
    (ht : ip₀.type ≠ tChecked) (hfuel : rest.length ≤ fuel) (hcur : cur = lo + bytes.length) :
    Ends (iappendLoop ip (pieces fuel cur rest.length) rest) st
      (maxfile * bsize < cur + rest.length ∨
        1024 + blocksFor lo < st₀.freeblock + blocksFor (cur + rest.length))
      fun ip' t => Appending st₀ ip₀ lo (bytes ++ rest) t ip' := by
  induction fuel generalizing bytes rest st ip cur with
  | zero =>
      obtain rfl : rest = [] := List.eq_nil_of_length_eq_zero (by omega)
      rw [List.append_nil]
      exact ends_pure h
  | succ fuel ih =>
      unfold pieces
      by_cases hn : rest.length = 0
      · obtain rfl : rest = [] := List.eq_nil_of_length_eq_zero hn
        rw [if_pos hn, List.append_nil]
        exact ends_pure h
      rw [if_neg hn]
      have hmod : cur % bsize < bsize := Nat.mod_lt _ (by decide)
      generalize hm : min rest.length (bsize - cur % bsize) = m
      have hchunk : (rest.take m).length = m := by
        rw [List.length_take]
        omega
      have hfit : cur % bsize + (rest.take m).length ≤ bsize := by
        rw [hchunk]
        simp only [bsize] at hm ⊢
        omega
      have hdrop : (rest.drop m).length = rest.length - m := List.length_drop
      unfold iappendLoop
      by_cases hbn : cur / bsize < maxfile
      swap
      · rw [if_neg hbn]
        refine ends_halt (.inl ?_)
        simp only [maxfile, bsize] at hbn ⊢
        omega
      rw [if_pos hbn]
      refine h.turn (f := fun ip => iappendLoop ip (pieces fuel (cur + m) (rest.length - m)) (rest.drop m))
        ht hcur hbn (by omega) hfit ?_ ?_
      · intro hover
        have hmono : blocksFor (cur + (rest.take m).length) ≤ blocksFor (cur + rest.length) :=
          blocksFor_mono (by omega)
        exact .inr (by omega)
      · intro t ip' h'
        have hcur' : cur + m = lo + (bytes ++ rest.take m).length := by
          rw [List.length_append, hchunk]
          omega
        have hrest := ih h' (rest.drop m) (by omega) hcur'
        rw [List.append_assoc, List.take_append_drop, hdrop] at hrest
        have hsum : cur + m + (rest.length - m) = cur + rest.length := by omega
        rw [hsum] at hrest
        exact hrest

end Appending

/-! ## Inodes of the image -/

/-- After `winode`. -/
def Image.putInode (st : Image) (ip : Inode) : Image :=
  { st with sect := putNode st.sect ip, writes := .inode ip.inum :: st.writes }

section Inodes

variable {st : Image} {ip : Inode} {i : Nat}

/-- The last inode block has room for eight inodes more than the superblock counts. -/
theorem iblock_lt_28 (hi : i < 208) : iblock i < 28 := by
  simp only [iblock, ipb]
  omega

theorem dnode_disk (hi : i < 208) : dnode st.disk i = dnode st.sect i := by
  have := iblock_lt_28 hi
  rw [dnode, disk_of_ne (by omega), dnode]

theorem putInode_disk (hi : ip.inum < 208) : (st.putInode ip).disk = putNode st.disk ip := by
  have hlt := iblock_lt_28 hi
  have hne : iblock ip.inum ≠ 28 := by omega
  rw [putNode, disk_of_ne hne]
  exact Function.update_comm hne _ _ _

theorem rinode_ok (h : Underway st) (hi : i < 208) : rinode i st = .ok (dnode st.disk i, st) := by
  have hlt := iblock_lt_28 hi
  rw [rinode, bind_of_ok (rsect_ok (by rw [h.len]; omega)), dnode_disk hi]
  rfl

theorem winode_ok (h : Underway st) (hi : i < 208) (n : Dinode) :
    winode i n st = .ok ((), st.putInode { n with inum := i }) := by
  have hlt := iblock_lt_28 hi
  have hmax : max st.len (iblock i + 1) = st.len := by
    rw [h.len]
    omega
  rw [winode, bind_of_ok (rsect_ok (by rw [h.len]; omega))]
  show Except.ok ((), _) = Except.ok ((), _)
  simp only [Image.putInode, hmax]
  rfl

theorem Underway.putInode (h : Underway st) : Underway (st.putInode ip) := by
  refine ⟨h.len, h.low, h.used, ?_⟩
  intro b hb
  rcases List.mem_cons.mp hb with heq | hb
  · cases heq
  · exact h.data b hb

end Inodes

end Xv6
end LfsXv6
