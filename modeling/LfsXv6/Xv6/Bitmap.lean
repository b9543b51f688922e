import LfsXv6.Xv6.Fs

/-!
# Bitmap — the block allocator and what it keeps account of

`Ledger sb disk ref` says that the bitmap of a disk agrees with a table `ref` of references to blocks:
the marked blocks are the metadata and the referenced ones, no block is referenced twice, and a block
that nobody refers to is zero.  `balloc` adds one reference to the table, `bfree` takes one out.
-/

namespace LfsXv6
namespace Xv6

open Lib Prog

/-! ## Bits of a block -/

section Bits

variable {d : Sector} {bi bj : Nat}

theorem bitMask_and_of_ne : ∀ a b : Fin 8, a ≠ b → bitMask a &&& bitMask b = 0 := by decide

theorem bitMask_ne_zero : ∀ a : Fin 8, bitMask a ≠ 0 := by decide

theorem not_bitMask_and_of_ne :
    ∀ a b : Fin 8, a ≠ b → ~~~ bitMask a &&& bitMask b = bitMask b := by decide

theorem not_bitMask_and_self : ∀ a : Fin 8, ~~~ bitMask a &&& bitMask a = 0 := by decide

theorem bitMask_mod (bi : Nat) : bitMask bi = bitMask (Fin.ofNat 8 bi) := by
  simp [bitMask, Fin.ofNat]

theorem or_and_of_and_eq_zero {x m m' : UInt8} (h : m &&& m' = 0) : (x ||| m) &&& m' = x &&& m' := by
  refine UInt8.toBitVec_inj.mp ?_
  have hbv : m.toBitVec &&& m'.toBitVec = 0 := congrArg UInt8.toBitVec h
  rw [UInt8.toBitVec_and, UInt8.toBitVec_or, BitVec.and_or_distrib_right, hbv, UInt8.toBitVec_and]
  exact BitVec.or_zero

theorem bit_setBit_self : (d.setBit bi).bit bi = true := by
  have hmask := bitMask_ne_zero (Fin.ofNat 8 bi)
  rw [← bitMask_mod] at hmask
  have hor : ∀ x y : UInt8, (x ||| y) &&& y = y := by
    intro x y
    refine UInt8.toBitVec_inj.mp (BitVec.eq_of_getElem_eq ?_)
    intro i hi
    simp +contextual
  simp [Sector.bit, Sector.setBit, hor, hmask]

/-- A mask changes the bits it names. -/
theorem bit_setBit_ne (h : bj ≠ bi) : (d.setBit bi).bit bj = d.bit bj := by
  by_cases hdiv : bj / 8 = bi / 8
  · have hmod : (Fin.ofNat 8 bi) ≠ (Fin.ofNat 8 bj) := by
      intro heq
      have := congrArg Fin.val heq
      simp only [Fin.ofNat] at this
      omega
    have hand := bitMask_and_of_ne _ _ hmod
    rw [← bitMask_mod, ← bitMask_mod] at hand
    simp only [Sector.bit, Sector.setBit, hdiv, Function.update_self, or_and_of_and_eq_zero hand]
  · simp only [Sector.bit, Sector.setBit, Function.update_of_ne hdiv]

theorem bit_clearBit_self : (d.clearBit bi).bit bi = false := by
  have hand := not_bitMask_and_self (Fin.ofNat 8 bi)
  rw [← bitMask_mod] at hand
  simp only [Sector.bit, Sector.clearBit, Function.update_self, UInt8.and_assoc, hand, UInt8.and_zero]
  rfl

theorem bit_clearBit_ne (h : bj ≠ bi) : (d.clearBit bi).bit bj = d.bit bj := by
  by_cases hdiv : bj / 8 = bi / 8
  · have hmod : (Fin.ofNat 8 bi) ≠ (Fin.ofNat 8 bj) := by
      intro heq
      have := congrArg Fin.val heq
      simp only [Fin.ofNat] at this
      omega
    have hand := not_bitMask_and_of_ne _ _ hmod
    rw [← bitMask_mod, ← bitMask_mod] at hand
    simp only [Sector.bit, Sector.clearBit, hdiv, Function.update_self, UInt8.and_assoc, hand]
  · simp only [Sector.bit, Sector.clearBit, Function.update_of_ne hdiv]

end Bits

/-! ## The areas of the disk -/

namespace Superblock

/-- The number of blocks the bitmap has bits for: `balloc` goes by whole bitmap blocks. -/
def cap (sb : Superblock) : Nat := (sb.size.toNat + (bpb - 1)) / bpb * bpb

/-- The first block of the bitmap. -/
def bitmapStart (sb : Superblock) : Nat := sb.ninodes.toNat / ipb + 3

/-- The blocks before the data, as `mkfs` counts them. -/
def metaBlocks (sb : Superblock) : Nat := sb.bitmapStart + (sb.size.toNat / bpb + 1)

/-- The blocks of inodes. -/
def InodeBlock (sb : Superblock) (b : Nat) : Prop := 2 ≤ b ∧ b < sb.bitmapStart

/-- The blocks of the bitmap. -/
def BitmapBlock (sb : Superblock) (b : Nat) : Prop := sb.bitmapStart ≤ b ∧ b < sb.metaBlocks

variable {sb : Superblock} {b : Nat}

theorem two_lt_bitmapStart : 2 < sb.bitmapStart := Nat.le_add_left 3 _

theorem bitmapStart_lt_metaBlocks : sb.bitmapStart < sb.metaBlocks :=
  Nat.lt_add_of_pos_right (Nat.succ_pos _)

theorem bitmapBlock_bblock (h : b < sb.cap) : sb.BitmapBlock (bblock b sb.ninodes.toNat) := by
  simp only [cap, BitmapBlock, metaBlocks, bitmapStart, bblock, bpb, ipb] at h ⊢
  omega

theorem add_lt_cap {bi : Nat} (hb : b * bpb < sb.cap) (hbi : bi < bpb) : b * bpb + bi < sb.cap := by
  have hlt : b + 1 ≤ (sb.size.toNat + (bpb - 1)) / bpb := Nat.lt_of_mul_lt_mul_right hb
  calc
    b * bpb + bi < b * bpb + bpb := Nat.add_lt_add_left hbi _
    _ = (b + 1) * bpb := (Nat.succ_mul b bpb).symm
    _ ≤ sb.cap := Nat.mul_le_mul_right bpb hlt

theorem inodeBlock_iblock (h : b < sb.ninodes.toNat) : sb.InodeBlock (iblock b) := by
  simp only [InodeBlock, bitmapStart, iblock, ipb]
  omega

end Superblock

/-- The bit of block `b`. -/
def marked (sb : Superblock) (disk : Nat → Sector) (b : Nat) : Prop :=
  (disk (bblock b sb.ninodes.toNat)).bit (b % bpb) = true

/-- The disk after `balloc` returned `b`. -/
def mark (sb : Superblock) (disk : Nat → Sector) (b : Nat) : Nat → Sector :=
  Function.update disk (bblock b sb.ninodes.toNat)
    ((disk (bblock b sb.ninodes.toNat)).setBit (b % bpb))

/-- The disk after `bfree` of `b`. -/
def unmark (sb : Superblock) (disk : Nat → Sector) (b : Nat) : Nat → Sector :=
  Function.update (Function.update disk b (disk b).clear) (bblock b sb.ninodes.toNat)
    ((disk (bblock b sb.ninodes.toNat)).clearBit (b % bpb))

section Marks

variable {sb : Superblock} {disk disk' : Nat → Sector} {b c : Nat}

theorem marked_mark_self : marked sb (mark sb disk b) b := by
  simp only [marked, mark, Function.update_self, bit_setBit_self]

theorem marked_mark_ne (h : c ≠ b) : marked sb (mark sb disk b) c ↔ marked sb disk c := by
  simp only [marked, mark]
  by_cases hsec : bblock c sb.ninodes.toNat = bblock b sb.ninodes.toNat
  · have hne : c % bpb ≠ b % bpb := by
      simp only [bblock, bpb] at hsec ⊢
      omega
    rw [hsec, Function.update_self, bit_setBit_ne hne]
  · rw [Function.update_of_ne hsec]

theorem mark_of_not_bitmap (hb : b < sb.cap) (hc : ¬ sb.BitmapBlock c) : mark sb disk b c = disk c := by
  refine Function.update_of_ne ?_ _ _
  rintro rfl
  exact hc (Superblock.bitmapBlock_bblock hb)

theorem not_marked_unmark_self : ¬ marked sb (unmark sb disk b) b := by
  simp [marked, unmark, bit_clearBit_self]

theorem unmark_of_not_bitmap (hb : b < sb.cap) (hc : ¬ sb.BitmapBlock c) (hne : c ≠ b) :
    unmark sb disk b c = disk c := by
  rw [unmark, Function.update_of_ne, Function.update_of_ne hne]
  rintro rfl
  exact hc (Superblock.bitmapBlock_bblock hb)

theorem unmark_self (hb : b < sb.cap) (hdata : sb.metaBlocks ≤ b) :
    unmark sb disk b b = (disk b).clear := by
  have hne : b ≠ bblock b sb.ninodes.toNat := by
    have := (Superblock.bitmapBlock_bblock hb).2
    omega
  rw [unmark, Function.update_of_ne hne, Function.update_self]

theorem marked_unmark_ne (hb : ¬ sb.BitmapBlock b) (hc : c < sb.cap) (h : c ≠ b) :
    marked sb (unmark sb disk b) c ↔ marked sb disk c := by
  have hcb : bblock c sb.ninodes.toNat ≠ b := by
    rintro rfl
    exact hb (Superblock.bitmapBlock_bblock hc)
  simp only [marked, unmark]
  by_cases hsec : bblock c sb.ninodes.toNat = bblock b sb.ninodes.toNat
  · have hne : c % bpb ≠ b % bpb := by
      simp only [bblock, bpb] at hsec ⊢
      omega
    rw [hsec, Function.update_self, bit_clearBit_ne hne]
  · rw [Function.update_of_ne hsec, Function.update_of_ne hcb]

end Marks

/-! ## The ledger -/

/-- The bitmap agrees with a table of references; `0` is no reference. -/
structure Ledger {κ : Type} (sb : Superblock) (disk : Nat → Sector) (ref : κ → Nat) : Prop where
  super : Superblock.decode (disk 1) = sb
  bits : ∀ b, b < sb.cap → (marked sb disk b ↔ b < sb.metaBlocks ∨ ∃ k, ref k = b)
  once : ∀ k k', ref k ≠ 0 → ref k = ref k' → k = k'
  inside : ∀ k, ref k ≠ 0 → sb.metaBlocks ≤ ref k ∧ ref k < sb.cap
  zero : ∀ b, sb.metaBlocks ≤ b → b < sb.cap → (∀ k, ref k ≠ b) → ∀ o, o < bsize → disk b o = 0

namespace Ledger

variable {κ : Type} {sb : Superblock} {disk disk' : Nat → Sector} {ref : κ → Nat} {k : κ} {b : Nat}

theorem data_of_ref (h : Ledger sb disk ref) (hk : ref k ≠ 0) :
    ref k ≠ 1 ∧ ¬ sb.InodeBlock (ref k) ∧ ¬ sb.BitmapBlock (ref k) := by
  have hin := (h.inside k hk).1
  have h2 := sb.two_lt_bitmapStart
  have hlt := sb.bitmapStart_lt_metaBlocks
  refine ⟨by omega, ?_, ?_⟩
  · rintro ⟨_, hb⟩
    omega
  · rintro ⟨_, hb⟩
    omega

/-- The ledger does not look into inodes and into blocks that are in use. -/
theorem congr (h : Ledger sb disk ref)
    (heq : ∀ c, ¬ sb.InodeBlock c → (∀ k, ref k = c → c = 0) → disk' c = disk c) :
    Ledger sb disk' ref := by
  have h2 := sb.two_lt_bitmapStart
  have hlt := sb.bitmapStart_lt_metaBlocks
  have hone : disk' 1 = disk 1 := by
    refine heq 1 (by simp [Superblock.InodeBlock]) ?_
    intro k hk
    exact absurd hk (h.data_of_ref (by omega)).1
  refine ⟨by rw [hone]; exact h.super, ?_, h.once, h.inside, ?_⟩
  · intro b hb
    have hbm := Superblock.bitmapBlock_bblock hb
    have hsame : disk' (bblock b sb.ninodes.toNat) = disk (bblock b sb.ninodes.toNat) := by
      refine heq _ ?_ ?_
      · rintro ⟨_, hin⟩
        exact absurd hbm.1 (by omega)
      · intro k hk
        by_contra hne
        rw [← hk] at hbm hne
        exact (h.data_of_ref hne).2.2 hbm
    rw [marked, hsame]
    exact h.bits b hb
  · intro b hlo hhi hfree o ho
    rw [heq b ?_ ?_]
    · exact h.zero b hlo hhi hfree o ho
    · rintro ⟨_, hin⟩
      omega
    · intro k hk
      exact absurd hk (hfree k)

theorem write_inode (h : Ledger sb disk ref) (hb : sb.InodeBlock b) (d : Sector) :
    Ledger sb (Function.update disk b d) ref := by
  refine h.congr ?_
  intro c hc _
  refine Function.update_of_ne ?_ _ _
  rintro rfl
  exact hc hb

theorem write_data (h : Ledger sb disk ref) (hk : ref k ≠ 0) (d : Sector) :
    Ledger sb (Function.update disk (ref k) d) ref := by
  refine h.congr ?_
  intro c _ hc
  refine Function.update_of_ne ?_ _ _
  rintro rfl
  exact hk (hc k rfl)

theorem free_of_not_marked (h : Ledger sb disk ref) (hb : b < sb.cap) (hfree : ¬ marked sb disk b) :
    sb.metaBlocks ≤ b ∧ ∀ k, ref k ≠ b := by
  constructor
  · by_contra hlt
    exact hfree ((h.bits b hb).mpr (.inl (by omega)))
  · exact fun j hj => hfree ((h.bits b hb).mpr (.inr ⟨j, hj⟩))

variable [DecidableEq κ]

/-- A free block and a reference to it. -/
theorem mark (h : Ledger sb disk ref) (hb : b < sb.cap) (hfree : ¬ marked sb disk b) (hk : ref k = 0) :
    Ledger sb (mark sb disk b) (Function.update ref k b) := by
  obtain ⟨hlo, hno⟩ := h.free_of_not_marked hb hfree
  have hkeep : ∀ c, ¬ sb.BitmapBlock c → Xv6.mark sb disk b c = disk c :=
    fun c hc => mark_of_not_bitmap hb hc
  have h2 := sb.two_lt_bitmapStart
  have hlt := sb.bitmapStart_lt_metaBlocks
  refine ⟨?_, ?_, ?_, ?_, ?_⟩
  · rw [hkeep 1 (by rintro ⟨hle, _⟩; omega)]
    exact h.super
  · intro c hc
    by_cases hcb : c = b
    · subst hcb
      exact iff_of_true marked_mark_self (.inr ⟨k, Function.update_self ..⟩)
    rw [marked_mark_ne hcb, h.bits c hc]
    by_cases hmeta : c < sb.metaBlocks
    · exact iff_of_true (.inl hmeta) (.inl hmeta)
    refine or_congr_right ⟨?_, ?_⟩
    · rintro ⟨j, hj⟩
      have hjk : j ≠ k := by
        rintro rfl
        omega
      exact ⟨j, by rw [Function.update_of_ne hjk]; exact hj⟩
    · rintro ⟨j, hj⟩
      have hjk : j ≠ k := by
        rintro rfl
        rw [Function.update_self] at hj
        exact hcb hj.symm
      exact ⟨j, by rw [Function.update_of_ne hjk] at hj; exact hj⟩
  · intro j j' hj heq
    by_cases hjk : j = k <;> by_cases hjk' : j' = k
    · rw [hjk, hjk']
    · subst hjk
      rw [Function.update_self, Function.update_of_ne hjk'] at heq
      exact absurd heq.symm (hno j')
    · subst hjk'
      rw [Function.update_self, Function.update_of_ne hjk] at heq
      exact absurd heq (hno j)
    · rw [Function.update_of_ne hjk] at hj
      rw [Function.update_of_ne hjk, Function.update_of_ne hjk'] at heq
      exact h.once j j' hj heq
  · intro j hj
    by_cases hjk : j = k
    · subst hjk
      rw [Function.update_self]
      exact ⟨hlo, hb⟩
    · rw [Function.update_of_ne hjk] at hj ⊢
      exact h.inside j hj
  · intro c hclo hchi hcfree o ho
    rw [hkeep c (by rintro ⟨_, hin⟩; omega)]
    refine h.zero c hclo hchi ?_ o ho
    intro j hj
    have hjk : j ≠ k := by
      rintro rfl
      omega
    exact hcfree j (by rw [Function.update_of_ne hjk]; exact hj)

/-- A block that is given back, and its reference with it. -/
theorem unmark (h : Ledger sb disk ref) (hk : ref k ≠ 0) :
    Ledger sb (unmark sb disk (ref k)) (Function.update ref k 0) := by
  obtain ⟨hlo, hhi⟩ := h.inside k hk
  have h2 := sb.two_lt_bitmapStart
  have hlt := sb.bitmapStart_lt_metaBlocks
  have hne : ∀ {j}, j ≠ k → ref j ≠ ref k := fun hjk heq => hjk (h.once _ _ hk heq.symm).symm
  refine ⟨?_, ?_, ?_, ?_, ?_⟩
  · rw [unmark_of_not_bitmap hhi (by rintro ⟨hle, _⟩; omega) (by omega)]
    exact h.super
  · intro c hc
    by_cases hcb : c = ref k
    · refine iff_of_false (hcb ▸ not_marked_unmark_self) ?_
      rintro (hmeta | ⟨j, hj⟩)
      · omega
      · by_cases hjk : j = k
        · subst hjk
          rw [Function.update_self] at hj
          omega
        · rw [Function.update_of_ne hjk] at hj
          exact hne hjk (hj.trans hcb)
    rw [marked_unmark_ne (h.data_of_ref hk).2.2 hc hcb, h.bits c hc]
    by_cases hmeta : c < sb.metaBlocks
    · exact iff_of_true (.inl hmeta) (.inl hmeta)
    refine or_congr_right ⟨?_, ?_⟩
    · rintro ⟨j, hj⟩
      have hjk : j ≠ k := by
        rintro rfl
        exact hcb hj.symm
      exact ⟨j, by rw [Function.update_of_ne hjk]; exact hj⟩
    · rintro ⟨j, hj⟩
      have hjk : j ≠ k := by
        rintro rfl
        rw [Function.update_self] at hj
        omega
      exact ⟨j, by rw [Function.update_of_ne hjk] at hj; exact hj⟩
  · intro j j' hj heq
    have hjk : j ≠ k := by
      rintro rfl
      exact hj (Function.update_self ..)
    have hjk' : j' ≠ k := by
      rintro rfl
      exact hj (heq.trans (Function.update_self ..))
    rw [Function.update_of_ne hjk] at hj
    rw [Function.update_of_ne hjk, Function.update_of_ne hjk'] at heq
    exact h.once j j' hj heq
  · intro j hj
    have hjk : j ≠ k := by
      rintro rfl
      exact hj (Function.update_self ..)
    rw [Function.update_of_ne hjk] at hj ⊢
    exact h.inside j hj
  · intro c hclo hchi hcfree o ho
    by_cases hcb : c = ref k
    · rw [hcb, unmark_self hhi hlo, Sector.clear, if_pos ho]
    · rw [unmark_of_not_bitmap hhi (by rintro ⟨_, hin⟩; omega) hcb]
      refine h.zero c hclo hchi ?_ o ho
      intro j hj
      have hjk : j ≠ k := by
        rintro rfl
        exact hcb hj.symm
      exact hcfree j (by rw [Function.update_of_ne hjk]; exact hj)

end Ledger

/-! ## The two operations -/

section Operations

variable {κ : Type} {sb : Superblock} {ref : κ → Nat} {s : Bufs}

/-- The buffers that may be locked when the allocator is called: some of the data, and not many. -/
structure Quiet (sb : Superblock) (busy : List Nat) : Prop where
  data : ∀ b ∈ busy, sb.metaBlocks ≤ b
  few : busy.length + 2 ≤ nbuf

theorem Quiet.nil : Quiet sb [] := ⟨fun _ hb => absurd hb List.not_mem_nil, by decide⟩

theorem Quiet.not_mem {busy : List Nat} (h : Quiet sb busy) {b : Nat} (hb : b < sb.metaBlocks) :
    b ∉ busy := by
  intro hmem
  have := h.data b hmem
  omega

/-- A buffer that is locked, looked at and released. -/
theorem bread_brelse {α : Type} {b : Nat} {f : Sector → α} (hb : b ∉ s.busy)
    (hlen : s.busy.length < nbuf) :
    (do let data ← bread b
        brelse b
        return f data : Prog Bufs α) s = .ok (f (s.disk b), s) := by
  rw [bind_of_ok (bread_ok hb hlen), bind_of_ok (brelse_ok List.mem_cons_self), List.erase_cons_head]
  rfl

theorem readsb_ok (hsuper : Superblock.decode (s.disk 1) = sb) (hq : Quiet sb s.busy) :
    readsb s = .ok (sb, s) := by
  have h2 := sb.two_lt_bitmapStart
  have hlt := sb.bitmapStart_lt_metaBlocks
  have hfew := hq.few
  rw [readsb, bread_brelse (hq.not_mem (by omega)) (by omega), hsuper]

theorem freeBit_eq_some {d : Sector} {bi : Nat} (h : d.freeBit = some bi) :
    bi < bpb ∧ d.bit bi = false ∧ ∀ bj, bj < bi → d.bit bj = true := by
  unfold Sector.freeBit at h
  obtain ⟨hclear, hmem, hfirst⟩ := List.find?_range_eq_some.mp h
  refine ⟨List.mem_range.mp hmem, by simpa using hclear, ?_⟩
  intro bj hbj
  simpa using hfirst bj hbj

theorem freeBit_eq_none {d : Sector} (h : d.freeBit = none) {bi : Nat} (hbi : bi < bpb) :
    d.bit bi = true := by
  unfold Sector.freeBit at h
  have := List.find?_eq_none.mp h bi (List.mem_range.mpr hbi)
  simpa using this

theorem ballocLoop_ends (hq : Quiet sb s.busy) {bs : List Nat} (hbs : ∀ b ∈ bs, b * bpb < sb.cap)
    (hsorted : bs.Pairwise (· < ·)) :
    Ends (ballocLoop sb.ninodes.toNat bs) s
      (∀ b ∈ bs, ∀ bi, bi < bpb → marked sb s.disk (b * bpb + bi))
      fun r t => ∃ n, r = UInt32.ofNat n ∧ n < sb.cap ∧ ¬ marked sb s.disk n ∧
        (∀ b ∈ bs, ∀ bi, bi < bpb → b * bpb + bi < n → marked sb s.disk (b * bpb + bi)) ∧
        t = { s with disk := mark sb s.disk n } := by
  have hfew := hq.few
  induction bs with
  | nil =>
      unfold ballocLoop
      exact ends_halt fun b hb => absurd hb List.not_mem_nil
  | cons b bs ih =>
      have hb := hbs b List.mem_cons_self
      obtain ⟨hafter, hsorted⟩ := List.pairwise_cons.mp hsorted
      have hsec : ∀ bi, bi < bpb → bblock (b * bpb + bi) sb.ninodes.toNat =
          bblock (b * bpb) sb.ninodes.toNat := by
        intro bi hbi
        simp only [bblock, bpb] at hbi ⊢
        omega
      have hmod : ∀ bi, bi < bpb → (b * bpb + bi) % bpb = bi := by
        intro bi hbi
        rw [Nat.mul_comm, Nat.mul_add_mod, Nat.mod_eq_of_lt hbi]
      unfold ballocLoop
      refine ends_step (bread_ok (hq.not_mem (Superblock.bitmapBlock_bblock hb).2) (by omega)) ?_
      cases hbit : Sector.freeBit (s.disk (bblock (b * bpb) sb.ninodes.toNat)) with
      | some bi =>
          obtain ⟨hbi, hclear, hfirst⟩ := freeBit_eq_some hbit
          refine ends_step (bwrite_ok List.mem_cons_self _) ?_
          refine ends_step (brelse_ok List.mem_cons_self) ?_
          refine ends_pure ⟨b * bpb + bi, rfl, ?_, ?_, ?_, ?_⟩
          · exact Superblock.add_lt_cap hb hbi
          · rw [marked, hsec bi hbi, hmod bi hbi, hclear]
            exact Bool.false_ne_true
          · intro c hc bj hbj hlt
            rcases List.mem_cons.mp hc with rfl | hc
            · rw [marked, hsec bj hbj, hmod bj hbj]
              exact hfirst bj (by omega)
            · have := hafter c hc
              simp only [bpb] at hbi hlt
              omega
          · simp only [mark, hsec bi hbi, hmod bi hbi, List.erase_cons_head]
      | none =>
          refine ends_step (brelse_ok List.mem_cons_self) ?_
          simp only [List.erase_cons_head]
          have hhead : ∀ bi, bi < bpb → marked sb s.disk (b * bpb + bi) := by
            intro bi hbi
            rw [marked, hsec bi hbi, hmod bi hbi]
            exact freeBit_eq_none hbit hbi
          refine (ih (fun c hc => hbs c (List.mem_cons_of_mem _ hc)) hsorted).mono ?_ ?_
          · intro hfull c hc bi hbi
            rcases List.mem_cons.mp hc with rfl | hc
            · exact hhead bi hbi
            · exact hfull c hc bi hbi
          · rintro r t ⟨n, hr, hn, hfree, hfirst, ht⟩
            refine ⟨n, hr, hn, hfree, ?_, ht⟩
            intro c hc bi hbi hlt
            rcases List.mem_cons.mp hc with rfl | hc
            · exact hhead bi hbi
            · exact hfirst c hc bi hbi hlt

/-- `balloc` marks the first free block the bitmap has a bit for, or there is none. -/
theorem balloc_first (hsuper : Superblock.decode (s.disk 1) = sb) (hq : Quiet sb s.busy) :
    Ends balloc s (∀ b, b < sb.cap → marked sb s.disk b) fun r t =>
      r.toNat < sb.cap ∧ ¬ marked sb s.disk r.toNat ∧
        (∀ b, b < r.toNat → marked sb s.disk b) ∧ t = { s with disk := mark sb s.disk r.toNat } := by
  have hcap : sb.cap ≤ 2 ^ 32 := by
    have := sb.size.toNat_lt
    simp only [Superblock.cap, bpb]
    omega
  have hsplit : ∀ b, b = b / bpb * bpb + b % bpb := by
    intro b
    simp only [bpb]
    omega
  have hblock : ∀ b, b < sb.cap → b / bpb ∈ List.range ((sb.size.toNat + (bpb - 1)) / bpb) := by
    intro b hb
    refine List.mem_range.mpr ?_
    simp only [Superblock.cap, bpb] at hb ⊢
    omega
  unfold balloc
  refine ends_step (readsb_ok hsuper hq) ?_
  refine (ballocLoop_ends hq ?_ List.pairwise_lt_range).mono ?_ ?_
  · intro b hb
    have := List.mem_range.mp hb
    simp only [Superblock.cap, bpb] at this ⊢
    omega
  · intro hfull b hb
    rw [hsplit b]
    exact hfull _ (hblock b hb) _ (Nat.mod_lt _ (by decide))
  · rintro r t ⟨n, rfl, hn, hfree, hfirst, ht⟩
    have hval : (UInt32.ofNat n).toNat = n := by
      rw [UInt32.toNat_ofNat']
      omega
    rw [hval]
    refine ⟨hn, hfree, ?_, ht⟩
    intro b hb
    rw [hsplit b]
    refine hfirst _ (hblock b (by omega)) _ (Nat.mod_lt _ (by decide)) ?_
    rw [← hsplit b]
    exact hb

/-- `balloc` marks a free block, or there is none. -/
theorem balloc_ends (hsuper : Superblock.decode (s.disk 1) = sb) (hsize : sb.size.toNat ≤ 2 ^ 24)
    (hq : Quiet sb s.busy) :
    Ends balloc s (∀ b, b < sb.cap → marked sb s.disk b) fun r t =>
      r.toNat < sb.cap ∧ r.toNat < 2 ^ 24 ∧ ¬ marked sb s.disk r.toNat ∧
        t = { s with disk := mark sb s.disk r.toNat } := by
  have hcap : sb.cap ≤ 2 ^ 24 := by
    simp only [Superblock.cap, bpb]
    omega
  refine (balloc_first hsuper hq).mono (fun hfull => hfull) ?_
  rintro r t ⟨hr, hfree, _, ht⟩
  exact ⟨hr, by omega, hfree, ht⟩

/-- `bfree` of a marked block, neither the super block nor a block of the bitmap. -/
theorem bfree_marked (hsuper : Superblock.decode (s.disk 1) = sb) (hq : Quiet sb s.busy) {b : UInt32}
    (hcap : b.toNat < sb.cap) (hmark : marked sb s.disk b.toNat) (hone : b.toNat ≠ 1)
    (hdata : ¬ sb.BitmapBlock b.toNat) (hfree : b.toNat ∉ s.busy) :
    bfree b s = .ok ((), { s with disk := unmark sb s.disk b.toNat }) := by
  have hbm := Superblock.bitmapBlock_bblock hcap
  have hfew := hq.few
  have hne : bblock b.toNat sb.ninodes.toNat ≠ b.toNat := by
    intro heq
    rw [heq] at hbm
    exact hdata hbm
  have hroom : s.busy.length < nbuf := by omega
  have hzero : bzero b.toNat s =
      .ok ((), { s with disk := Function.update s.disk b.toNat (s.disk b.toNat).clear }) := by
    rw [bzero, bind_of_ok (bread_ok hfree hroom), bind_of_ok (bwrite_ok List.mem_cons_self _),
      brelse_ok List.mem_cons_self, List.erase_cons_head]
  have hkept : Superblock.decode (Function.update s.disk b.toNat (s.disk b.toNat).clear 1) = sb := by
    rw [Function.update_of_ne (Ne.symm hone)]
    exact hsuper
  have hbit : (Function.update s.disk b.toNat (s.disk b.toNat).clear
      (bblock b.toNat sb.ninodes.toNat)).bit (b.toNat % bpb) = true := by
    rw [Function.update_of_ne hne]
    exact hmark
  have hsb := readsb_ok
    (s := { s with disk := Function.update s.disk b.toNat (s.disk b.toNat).clear }) hkept hq
  have hread := bread_ok (s := { s with disk := Function.update s.disk b.toNat (s.disk b.toNat).clear })
    (hq.not_mem hbm.2) hroom
  unfold bfree
  rw [bind_of_ok hzero, bind_of_ok hsb, bind_of_ok hread, if_neg (by rw [hbit]; exact Bool.noConfusion)]
  rw [bind_of_ok (bwrite_ok List.mem_cons_self _), brelse_ok List.mem_cons_self, List.erase_cons_head]
  simp only [Function.update_of_ne hne, unmark]

/-- `bfree` of a block that is referenced. -/
theorem bfree_ok (h : Ledger sb s.disk ref) (hq : Quiet sb s.busy) {k : κ} {b : UInt32}
    (hk : ref k = b.toNat) (hb : b ≠ 0) (hfree : b.toNat ∉ s.busy) :
    bfree b s = .ok ((), { s with disk := unmark sb s.disk b.toNat }) := by
  have hb0 : ref k ≠ 0 := fun h0 => hb (UInt32.toNat_inj.mp (hk.symm.trans h0))
  obtain ⟨hone, _, hdata⟩ := h.data_of_ref hb0
  have hhi := (h.inside k hb0).2
  rw [hk] at hone hdata hhi
  exact bfree_marked h.super hq hhi ((h.bits _ hhi).mpr (.inr ⟨k, hk⟩)) hone hdata hfree

end Operations

end Xv6
end LfsXv6
