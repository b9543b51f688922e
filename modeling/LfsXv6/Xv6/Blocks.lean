import LfsXv6.Xv6.Bitmap

/-!
# Blocks — the places of an inode and the blocks they refer to

An inode has 13 slots for disk addresses, and the block of the last one has 128 more.  The words in
these places are disk addresses, with a checksum in the top byte where the file is checked.  A disk is
`Consistent` when its bitmap agrees with the words of all allocated inodes; `Holding` is the same for a
disk and one inode that is in memory and may be ahead of it.
-/

namespace LfsXv6
namespace Xv6

open Lib Prog

/-! ## Addresses with a checksum -/

section Words

variable {type : Int16} {x : UInt32} {c : UInt8}

theorem maskAddr_toNat (x : UInt32) : (maskAddr x).toNat = x.toNat % 2 ^ 24 := by
  rw [maskAddr, UInt32.toNat_and]
  exact Nat.and_two_pow_sub_one_eq_mod x.toNat 24

theorem checkByte_toNat (x : UInt32) : (checkByte x).toNat = x.toNat / 2 ^ 24 := by
  have hlt := x.toNat_lt
  have hmask : (0xff000000 : UInt32).toNat >>> 24 = 2 ^ 8 - 1 := by decide
  have h24 : (24 : UInt32).toNat % 32 = 24 := by decide
  rw [checkByte, UInt32.toNat_toUInt8, UInt32.toNat_shiftRight, UInt32.toNat_and, h24,
    Nat.shiftRight_and_distrib, hmask, Nat.and_two_pow_sub_one_eq_mod, Nat.shiftRight_eq_div_pow]
  omega

theorem addrOf_toNat : (addrOf type x).toNat = if type = tChecked then x.toNat % 2 ^ 24 else x.toNat := by
  unfold addrOf
  split
  · exact maskAddr_toNat x
  · rfl

@[simp] theorem addrOf_zero : addrOf type 0 = 0 := by
  unfold addrOf
  split <;> rfl

theorem addrOf_of_lt (h : x.toNat < 2 ^ 24) : addrOf type x = x := by
  refine UInt32.toNat_inj.mp ?_
  rw [addrOf_toNat]
  split
  · exact Nat.mod_eq_of_lt h
  · rfl

@[simp] theorem addrOf_addrOf : addrOf type (addrOf type x) = addrOf type x := by
  refine UInt32.toNat_inj.mp ?_
  rw [addrOf_toNat, addrOf_toNat]
  split
  · exact Nat.mod_mod _ _
  · rfl

theorem withCheck_toNat : (withCheck x c).toNat = c.toNat * 2 ^ 24 + x.toNat % 2 ^ 24 := by
  have hc := c.toNat_lt
  have hlt : x.toNat % 2 ^ 24 < 2 ^ 24 := Nat.mod_lt _ (by decide)
  have hshift : (c.toUInt32 <<< 24).toNat = c.toNat <<< 24 := by
    rw [UInt32.toNat_shiftLeft, UInt8.toNat_toUInt32]
    have h24 : (24 : UInt32).toNat % 32 = 24 := by decide
    rw [h24, Nat.shiftLeft_eq]
    omega
  rw [withCheck, UInt32.toNat_or, maskAddr_toNat, hshift, Nat.or_comm, ← Nat.shiftLeft_add_eq_or_of_lt hlt,
    Nat.shiftLeft_eq]

theorem addrOf_withCheck : addrOf tChecked (withCheck x c) = addrOf tChecked x := by
  refine UInt32.toNat_inj.mp ?_
  rw [addrOf_toNat, addrOf_toNat, if_pos rfl, if_pos rfl, withCheck_toNat]
  omega

theorem checkByte_withCheck : checkByte (withCheck x c) = c := by
  refine UInt8.toNat_inj.mp ?_
  rw [checkByte_toNat, withCheck_toNat]
  omega

end Words

/-! ## Places -/

/-- The places of an inode that hold a word: a slot of `addrs`, or an entry of the indirect block. -/
inductive Place where
  | slot (k : Fin 13)
  | entry (j : Fin 128)
deriving DecidableEq, Fintype

/-- The place of the indirect block. -/
abbrev Place.indirect : Place := .slot 12

namespace Dinode

/-- The address of the indirect block; `0` is none. -/
def indirect (n : Dinode) : Nat := (addrOf n.type (n.addrs 12)).toNat

/-- The word in a place. -/
def word (n : Dinode) (disk : Nat → Sector) : Place → UInt32
  | .slot k => n.addrs k
  | .entry j => if n.indirect = 0 then 0 else (disk n.indirect).word j

/-- The disk address in a place; `0` is none. -/
def addr (n : Dinode) (disk : Nat → Sector) (p : Place) : Nat := (addrOf n.type (n.word disk p)).toNat

theorem addr_indirect (n : Dinode) (disk : Nat → Sector) : n.addr disk .indirect = n.indirect := rfl

theorem addr_congr {n : Dinode} {disk disk' : Nat → Sector} {p : Place}
    (h : n.word disk' p = n.word disk p) : n.addr disk' p = n.addr disk p := by
  rw [addr, h, addr]

/-- The words of an inode depend on its indirect block alone. -/
theorem word_congr {n : Dinode} {disk disk' : Nat → Sector}
    (h : n.indirect ≠ 0 → disk' n.indirect = disk n.indirect) (p : Place) :
    n.word disk' p = n.word disk p := by
  cases p with
  | slot k => rfl
  | entry j =>
      by_cases hne : n.indirect = 0
      · simp only [word, if_pos hne]
      · simp only [word, if_neg hne, h hne]

end Dinode

/-- Put a word into a place. -/
def putWord (disk : Nat → Sector) (ip : Inode) (w : UInt32) : Place → (Nat → Sector) × Inode
  | .slot k => (disk, ip.setAddr k w)
  | .entry j => (Function.update disk ip.indirect ((disk ip.indirect).setWord j w), ip)

section PutWord

variable {disk : Nat → Sector} {ip : Inode} {w : UInt32} {p : Place}

@[simp] theorem putWord_inum : (putWord disk ip w p).2.inum = ip.inum := by
  cases p <;> rfl

@[simp] theorem putWord_type : (putWord disk ip w p).2.type = ip.type := by
  cases p <;> rfl

@[simp] theorem putWord_size : (putWord disk ip w p).2.size = ip.size := by
  cases p <;> rfl

/-- What may be put where: an entry needs an indirect block, and a new indirect block is empty. -/
structure Puttable (disk : Nat → Sector) (ip : Inode) (w : UInt32) (p : Place) : Prop where
  entry : ∀ j, p = .entry j → ip.indirect ≠ 0
  empty : p = .indirect → ip.indirect = 0 ∧ ∀ o, o < bsize → disk (addrOf ip.type w).toNat o = 0

theorem word_of_zero {d : Sector} (h : ∀ o, o < bsize → d o = 0) {k : Nat} (hk : k < nindirect) :
    d.word k = 0 := by
  have hsame : d.word k = Sector.word (fun _ => 0) k := word_congr h hk
  rw [hsame, Sector.word]
  have hget : getInt (fun _ => 0) (4 * k) = 0 := by
    refine getInt_eq ?_
    intro b hb
    simp [intByte]
  rw [hget]
  rfl

theorem word_putWord (h : Puttable disk ip w p) (q : Place) :
    (putWord disk ip w p).2.word (putWord disk ip w p).1 q =
      if q = p then w else ip.word disk q := by
  cases p with
  | slot k =>
      cases q with
      | slot k' =>
          simp only [putWord, Dinode.word, Inode.setAddr, Function.update_apply, Place.slot.injEq]
      | entry j =>
          rw [if_neg (by simp)]
          by_cases hk : k = 12
          · -- the entries of the new block are empty, as the missing ones were
            subst hk
            obtain ⟨hnone, hzero⟩ := h.empty rfl
            have hind : ((ip.setAddr 12 w).toDinode).indirect = (addrOf ip.type w).toNat := by
              simp [Dinode.indirect, Inode.setAddr]
            simp only [putWord, Dinode.word, hind, hnone, if_true]
            split
            · rfl
            · exact word_of_zero hzero j.isLt
          · have hind : ((ip.setAddr k w).toDinode).indirect = ip.indirect := by
              simp only [Dinode.indirect, Inode.setAddr, Function.update_of_ne (Ne.symm hk)]
            simp only [putWord, Dinode.word, hind]
  | entry j =>
      have hind := h.entry j rfl
      cases q with
      | slot k =>
          rw [if_neg (by simp)]
          rfl
      | entry j' =>
          simp only [putWord, Dinode.word, if_neg hind, Function.update_self, Place.entry.injEq]
          by_cases hj : j' = j
          · rw [if_pos hj, hj, word_setWord_self]
          · rw [if_neg hj, word_setWord_ne fun heq => hj (Fin.ext heq)]

theorem addr_putWord (h : Puttable disk ip w p) (q : Place) :
    (putWord disk ip w p).2.addr (putWord disk ip w p).1 q =
      if q = p then (addrOf ip.type w).toNat else ip.addr disk q := by
  unfold Dinode.addr
  rw [word_putWord h, putWord_type]
  split <;> rfl

end PutWord

/-! ## References -/

/-- `(struct dinode*)` of inode `i` -/
def dnode (disk : Nat → Sector) (i : Nat) : Dinode := (disk (iblock i)).dinode (i % ipb)

/-- The references of the allocated inodes. -/
def refs (sb : Superblock) (disk : Nat → Sector) (nodes : Nat → Dinode) (r : Nat × Place) : Nat :=
  if r.1 < sb.ninodes.toNat ∧ (nodes r.1).type ≠ 0 then (nodes r.1).addr disk r.2 else 0

/-- The inodes of the disk, but for one that is in memory. -/
def nodesWith (disk : Nat → Sector) (ip : Inode) : Nat → Dinode :=
  Function.update (dnode disk) ip.inum ip.toDinode

/-- The bitmap of the disk agrees with its inodes. -/
structure Consistent (sb : Superblock) (disk : Nat → Sector) : Prop where
  small : sb.size.toNat ≤ 2 ^ 24
  ledger : Ledger sb disk (refs sb disk (dnode disk))

/-- The bitmap of the disk agrees with its inodes and with `ip`. -/
structure Holding (sb : Superblock) (disk : Nat → Sector) (ip : Inode) : Prop where
  small : sb.size.toNat ≤ 2 ^ 24
  number : ip.inum < sb.ninodes.toNat
  allocated : ip.type ≠ 0
  ledger : Ledger sb disk (refs sb disk (nodesWith disk ip))

section Refs

variable {sb : Superblock} {disk disk' : Nat → Sector} {ip : Inode} {p q : Place} {w : UInt32}

theorem nodesWith_self (h : dnode disk ip.inum = ip.toDinode) : nodesWith disk ip = dnode disk := by
  rw [nodesWith, ← h, Function.update_eq_self]

theorem Consistent.holding (h : Consistent sb disk) (hnum : ip.inum < sb.ninodes.toNat)
    (htype : ip.type ≠ 0) (hsame : dnode disk ip.inum = ip.toDinode) : Holding sb disk ip := by
  refine ⟨h.small, hnum, htype, ?_⟩
  rw [nodesWith_self hsame]
  exact h.ledger

namespace Holding

theorem refs_self (h : Holding sb disk ip) (p : Place) :
    refs sb disk (nodesWith disk ip) (ip.inum, p) = ip.addr disk p := by
  simp only [refs, nodesWith, Function.update_self]
  rw [if_pos ⟨h.number, h.allocated⟩]

theorem inside (h : Holding sb disk ip) (hp : ip.addr disk p ≠ 0) :
    sb.metaBlocks ≤ ip.addr disk p ∧ ip.addr disk p < sb.cap := by
  rw [← h.refs_self] at hp ⊢
  exact h.ledger.inside _ hp

theorem once (h : Holding sb disk ip) (hp : ip.addr disk p ≠ 0)
    (heq : ip.addr disk p = ip.addr disk q) : p = q := by
  rw [← h.refs_self] at hp heq
  rw [← h.refs_self] at heq
  exact (Prod.mk.inj (h.ledger.once _ _ hp heq)).2

/-- The inodes stand in blocks of their own. -/
theorem dnode_congr (heq : ∀ b, sb.InodeBlock b → disk' b = disk b) {i : Nat}
    (hi : i < sb.ninodes.toNat) : dnode disk' i = dnode disk i := by
  rw [dnode, dnode, heq _ (Superblock.inodeBlock_iblock hi)]

/-- A change to blocks of `ip` and to the bitmap does not show in the other inodes. -/
theorem refs_other (h : Holding sb disk ip) (disk' : Nat → Sector) (ip' : Inode)
    (hnum : ip'.inum = ip.inum)
    (heq : ∀ b, b ≠ 0 → ¬ sb.BitmapBlock b → (∀ p, ip.addr disk p ≠ b) → disk' b = disk b)
    {i : Nat} (hi : i ≠ ip.inum) (q : Place) :
    refs sb disk' (nodesWith disk' ip') (i, q) = refs sb disk (nodesWith disk ip) (i, q) := by
  have hblocks : ∀ b, sb.InodeBlock b → disk' b = disk b := by
    rintro b ⟨hlo, hhi⟩
    refine heq b (by omega) ?_ ?_
    · rintro ⟨hle, _⟩
      omega
    · rintro p rfl
      have := (h.inside (p := p) (by omega)).1
      have := sb.bitmapStart_lt_metaBlocks
      omega
  simp only [refs, nodesWith, hnum, Function.update_of_ne hi]
  by_cases hin : i < sb.ninodes.toNat
  swap
  · rw [if_neg fun hc => hin hc.1, if_neg fun hc => hin hc.1]
  rw [dnode_congr hblocks hin]
  by_cases ht : (dnode disk i).type = 0
  · rw [if_neg fun hc => hc.2 ht, if_neg fun hc => hc.2 ht]
  rw [if_pos ⟨hin, ht⟩, if_pos ⟨hin, ht⟩, Dinode.addr, Dinode.addr, Dinode.word_congr]
  intro hind
  -- the indirect block of another inode is none of the blocks that changed
  have href : refs sb disk (nodesWith disk ip) (i, .indirect) = (dnode disk i).indirect := by
    simp only [refs, nodesWith, Function.update_of_ne hi]
    rw [if_pos ⟨hin, ht⟩]
    rfl
  have hne : refs sb disk (nodesWith disk ip) (i, .indirect) ≠ 0 := by rwa [href]
  rw [← href]
  refine heq _ hne (h.ledger.data_of_ref hne).2.2 ?_
  intro p hp
  rw [← h.refs_self] at hp
  have := h.ledger.once _ _ hne hp.symm
  exact hi (Prod.mk.inj this).1

theorem indirect_not_bitmap (h : Holding sb disk ip) (hind : ip.indirect ≠ 0) :
    ¬ sb.BitmapBlock ip.indirect := by
  rintro ⟨_, hhi⟩
  have := (h.inside (p := .indirect) hind).1
  rw [Dinode.addr_indirect] at this
  omega

theorem word_of_bitmap (h : Holding sb disk ip) (heq : ∀ b, ¬ sb.BitmapBlock b → disk' b = disk b)
    (p : Place) : ip.word disk' p = ip.word disk p :=
  Dinode.word_congr (fun hind => heq _ (h.indirect_not_bitmap hind)) p

/-- The table of references after one word of `ip` was replaced. -/
theorem refs_put (h : Holding sb disk ip) (heq : ∀ b, ¬ sb.BitmapBlock b → disk' b = disk b)
    (hput : Puttable disk' ip w p) :
    refs sb (putWord disk' ip w p).1 (nodesWith (putWord disk' ip w p).1 (putWord disk' ip w p).2) =
      Function.update (refs sb disk (nodesWith disk ip)) (ip.inum, p) (addrOf ip.type w).toNat := by
  funext ⟨i, q⟩
  by_cases hi : i = ip.inum
  · subst hi
    have hself : refs sb (putWord disk' ip w p).1
        (nodesWith (putWord disk' ip w p).1 (putWord disk' ip w p).2) (ip.inum, q) =
          (putWord disk' ip w p).2.addr (putWord disk' ip w p).1 q := by
      have hnode : nodesWith (putWord disk' ip w p).1 (putWord disk' ip w p).2 ip.inum =
          (putWord disk' ip w p).2.toDinode := by
        rw [nodesWith, putWord_inum, Function.update_self]
      simp only [refs, hnode, putWord_type]
      rw [if_pos ⟨h.number, h.allocated⟩]
    rw [hself, addr_putWord hput]
    by_cases hq : q = p
    · rw [if_pos hq, hq, Function.update_self]
    · rw [if_neg hq, Function.update_of_ne fun hc => hq (Prod.mk.inj hc).2, h.refs_self, Dinode.addr,
        Dinode.addr, h.word_of_bitmap heq]
  · rw [Function.update_of_ne fun hc => hi (Prod.mk.inj hc).1]
    refine h.refs_other _ _ putWord_inum ?_ hi q
    intro b _ hb hp
    rw [← heq b hb]
    cases p with
    | slot k => rfl
    | entry j => exact Function.update_of_ne (fun hc => hp .indirect hc.symm) _ _

/-- A word is replaced by one with the same address: a checksum changed. -/
theorem put_same (h : Holding sb disk ip) (hp : p ≠ .indirect) (hpos : ip.addr disk p ≠ 0)
    (hw : (addrOf ip.type w).toNat = ip.addr disk p) :
    Holding sb (putWord disk ip w p).1 (putWord disk ip w p).2 := by
  have hput : Puttable disk ip w p := by
    refine ⟨?_, fun hc => absurd hc hp⟩
    rintro j rfl hind
    simp [Dinode.addr, Dinode.word, hind] at hpos
  refine ⟨h.small, ?_, ?_, ?_⟩
  · rw [putWord_inum]
    exact h.number
  · rw [putWord_type]
    exact h.allocated
  rw [h.refs_put (fun _ _ => rfl) hput, hw, ← h.refs_self, Function.update_eq_self]
  cases p with
  | slot k => exact h.ledger
  | entry j =>
      have hind := hput.entry j rfl
      have hkey : refs sb disk (nodesWith disk ip) (ip.inum, .indirect) = ip.indirect := h.refs_self _
      have := h.ledger.write_data (k := (ip.inum, .indirect)) (by rwa [hkey])
        ((disk ip.indirect).setWord j w)
      rwa [hkey] at this

/-- The bytes of a data block of `ip` are replaced. -/
theorem write_block (h : Holding sb disk ip) (hp : p ≠ .indirect) (hpos : ip.addr disk p ≠ 0)
    (d : Sector) : Holding sb (Function.update disk (ip.addr disk p) d) ip ∧
      ∀ q, ip.word (Function.update disk (ip.addr disk p) d) q = ip.word disk q := by
  have hword : ∀ q, ip.word (Function.update disk (ip.addr disk p) d) q = ip.word disk q := by
    refine Dinode.word_congr ?_
    intro hind
    refine Function.update_of_ne ?_ _ _
    intro heq
    exact hp (h.once (p := .indirect) (q := p) hind heq).symm
  refine ⟨⟨h.small, h.number, h.allocated, ?_⟩, hword⟩
  have hrefs : refs sb (Function.update disk (ip.addr disk p) d)
      (nodesWith (Function.update disk (ip.addr disk p) d) ip) =
        refs sb disk (nodesWith disk ip) := by
    funext ⟨i, q⟩
    by_cases hi : i = ip.inum
    · subst hi
      rw [h.refs_self]
      simp only [refs, nodesWith, Function.update_self]
      rw [if_pos ⟨h.number, h.allocated⟩]
      exact Dinode.addr_congr (hword q)
    · refine h.refs_other _ _ rfl ?_ hi q
      intro b _ _ hne
      exact Function.update_of_ne (fun hc => hne p hc.symm) _ _
  rw [hrefs, ← h.refs_self]
  exact h.ledger.write_data (by rwa [h.refs_self]) d

end Holding

end Refs

/-! ## Growing -/

instance (sb : Superblock) (disk : Nat → Sector) (b : Nat) : Decidable (marked sb disk b) :=
  inferInstanceAs (Decidable (_ = true))

/-- The blocks that `balloc` can return. -/
def freeBlocks (sb : Superblock) (disk : Nat → Sector) : Finset Nat :=
  (Finset.range sb.cap).filter fun b => ¬ marked sb disk b

/-- The places of an inode without a block. -/
def missing (disk : Nat → Sector) (n : Dinode) : Finset Place :=
  Finset.univ.filter fun p => n.addr disk p = 0

/-- There is a free block for every place of `ip` without one. -/
def Room (sb : Superblock) (disk : Nat → Sector) (ip : Inode) : Prop :=
  (missing disk ip.toDinode).card ≤ (freeBlocks sb disk).card

/-- What `bmap` may do: places of `ip` get new, empty blocks; the words and the bytes that were there
stay. -/
structure Grows (sb : Superblock) (disk : Nat → Sector) (ip : Inode) (disk' : Nat → Sector)
    (ip' : Inode) : Prop where
  holding : Holding sb disk' ip'
  same : ip' = { ip with addrs := ip'.addrs }
  word : ∀ p, ip.addr disk p ≠ 0 → ip'.word disk' p = ip.word disk p
  fresh : ∀ p, ip.addr disk p = 0 → ip'.word disk' p = ip.word disk p ∨
    (ip'.addr disk' p ≠ 0 ∧ (ip'.word disk' p).toNat < 2 ^ 24 ∧
      (p ≠ .indirect → ∀ o, o < bsize → disk' (ip'.addr disk' p) o = 0))
  kept : ∀ b, b ≠ 0 → ¬ sb.BitmapBlock b → ip'.indirect ≠ b → disk' b = disk b
  count : (missing disk' ip'.toDinode).card + (freeBlocks sb disk).card =
    (missing disk ip.toDinode).card + (freeBlocks sb disk').card

namespace Grows

variable {sb : Superblock} {disk disk' disk'' : Nat → Sector} {ip ip' ip'' : Inode} {p : Place}
variable {w : UInt32}

theorem refl (h : Holding sb disk ip) : Grows sb disk ip disk ip :=
  ⟨h, rfl, fun _ _ => rfl, fun _ _ => .inl rfl, fun _ _ _ _ => rfl, rfl⟩

theorem type_eq (h : Grows sb disk ip disk' ip') : ip'.type = ip.type := by
  rw [h.same]

theorem inum_eq (h : Grows sb disk ip disk' ip') : ip'.inum = ip.inum := by
  rw [h.same]

theorem addr (h : Grows sb disk ip disk' ip') (hp : ip.addr disk p ≠ 0) :
    ip'.addr disk' p = ip.addr disk p := by
  rw [Dinode.addr, Dinode.addr, h.word p hp, h.type_eq]

theorem room (h : Grows sb disk ip disk' ip') : Room sb disk' ip' ↔ Room sb disk ip := by
  have := h.count
  unfold Room
  omega

theorem trans (h : Grows sb disk ip disk' ip') (h' : Grows sb disk' ip' disk'' ip'') :
    Grows sb disk ip disk'' ip'' := by
  refine ⟨h'.holding, ?_, ?_, ?_, ?_, ?_⟩
  · rw [h'.same, h.same]
  · intro p hp
    rw [h'.word p (by rwa [h.addr hp]), h.word p hp]
  · intro p hp
    rcases h.fresh p hp with hsame | ⟨hnew, hlow, hzero⟩
    · have hp' : ip'.addr disk' p = 0 := by
        rw [Dinode.addr, hsame, h.type_eq]
        exact hp
      rcases h'.fresh p hp' with hsame' | hnew'
      · exact .inl (hsame'.trans hsame)
      · exact .inr hnew'
    · -- the block of the first step is still empty: it is not the indirect block
      refine .inr ⟨by rwa [h'.addr hnew], by rwa [h'.word p hnew], ?_⟩
      intro hne o ho
      rw [h'.addr hnew, h'.kept _ hnew ?_ ?_]
      · exact hzero hne o ho
      · rintro ⟨_, hhi⟩
        have := (h.holding.inside hnew).1
        omega
      · intro heq
        have hnew'' : ip''.addr disk'' p ≠ 0 := by rwa [h'.addr hnew]
        refine hne (h'.holding.once hnew'' ?_)
        rw [h'.addr hnew]
        exact heq.symm
  · intro b hb hbm hne
    by_cases hind : ip'.indirect = b
    · have hpos : ip'.addr disk' .indirect ≠ 0 := by
        rw [Dinode.addr_indirect, hind]
        exact hb
      have := h'.addr hpos
      rw [Dinode.addr_indirect, Dinode.addr_indirect, hind] at this
      exact absurd this hne
    · rw [h'.kept b hb hbm hne, h.kept b hb hbm hind]
  · have h1 := h.count
    have h2 := h'.count
    omega

end Grows

section Alloc

variable {sb : Superblock} {disk : Nat → Sector} {ip : Inode} {p : Place} {w : UInt32}

theorem freeBlocks_congr {disk' : Nat → Sector} (heq : ∀ b, sb.BitmapBlock b → disk' b = disk b) :
    freeBlocks sb disk' = freeBlocks sb disk := by
  ext c
  simp only [freeBlocks, Finset.mem_filter, Finset.mem_range]
  refine and_congr_right ?_
  intro hc
  rw [marked, heq _ (Superblock.bitmapBlock_bblock hc), marked]

theorem freeBlocks_mark {b : Nat} : freeBlocks sb (mark sb disk b) = (freeBlocks sb disk).erase b := by
  ext c
  simp only [freeBlocks, Finset.mem_filter, Finset.mem_erase, Finset.mem_range]
  by_cases hc : c = b
  · subst hc
    simp [marked_mark_self]
  · simp [marked_mark_ne hc, hc]

/-- A free block may be put into an empty place. -/
theorem Holding.puttable (h : Holding sb disk ip) (hcap : w.toNat < sb.cap) (hlt : w.toNat < 2 ^ 24)
    (hfree : ¬ marked sb disk w.toNat) (hp : ip.addr disk p = 0)
    (hentry : ∀ j, p = .entry j → ip.indirect ≠ 0) : Puttable (mark sb disk w.toNat) ip w p := by
  obtain ⟨hlo, hno⟩ := h.ledger.free_of_not_marked hcap hfree
  refine ⟨hentry, ?_⟩
  rintro rfl
  refine ⟨hp, ?_⟩
  intro o ho
  rw [addrOf_of_lt hlt, mark_of_not_bitmap hcap (by rintro ⟨_, hhi⟩; omega)]
  exact h.ledger.zero _ hlo hcap hno o ho

theorem Holding.grow_addr (h : Holding sb disk ip) (hcap : w.toNat < sb.cap) (hlt : w.toNat < 2 ^ 24)
    (hfree : ¬ marked sb disk w.toNat) (hp : ip.addr disk p = 0)
    (hentry : ∀ j, p = .entry j → ip.indirect ≠ 0) (q : Place) :
    (putWord (mark sb disk w.toNat) ip w p).2.addr (putWord (mark sb disk w.toNat) ip w p).1 q =
      if q = p then w.toNat else ip.addr disk q := by
  have hkeep : ∀ b, ¬ sb.BitmapBlock b → mark sb disk w.toNat b = disk b :=
    fun b hb => mark_of_not_bitmap hcap hb
  rw [addr_putWord (h.puttable hcap hlt hfree hp hentry), addrOf_of_lt hlt,
    Dinode.addr_congr (h.word_of_bitmap hkeep q)]

/-- The block that `balloc` returned is put into an empty place. -/
theorem Holding.grow (h : Holding sb disk ip) (hcap : w.toNat < sb.cap) (hlt : w.toNat < 2 ^ 24)
    (hfree : ¬ marked sb disk w.toNat) (hp : ip.addr disk p = 0)
    (hentry : ∀ j, p = .entry j → ip.indirect ≠ 0) :
    Grows sb disk ip (putWord (mark sb disk w.toNat) ip w p).1
        (putWord (mark sb disk w.toNat) ip w p).2 ∧
      (putWord (mark sb disk w.toNat) ip w p).2.addr (putWord (mark sb disk w.toNat) ip w p).1 p =
        w.toNat ∧ w.toNat ≠ 0 := by
  obtain ⟨hlo, hno⟩ := h.ledger.free_of_not_marked hcap hfree
  have h2 := sb.two_lt_bitmapStart
  have hlt' := sb.bitmapStart_lt_metaBlocks
  have hkeep : ∀ b, ¬ sb.BitmapBlock b → mark sb disk w.toNat b = disk b :=
    fun b hb => mark_of_not_bitmap hcap hb
  have hw : addrOf ip.type w = w := addrOf_of_lt hlt
  have hzero : ∀ o, o < bsize → mark sb disk w.toNat w.toNat o = 0 := by
    intro o ho
    rw [hkeep _ (by rintro ⟨_, hhi⟩; omega)]
    exact h.ledger.zero _ hlo hcap hno o ho
  have hput := h.puttable hcap hlt hfree hp hentry
  have haddr := h.grow_addr hcap hlt hfree hp hentry
  have hledger : Ledger sb (mark sb disk w.toNat)
      (Function.update (refs sb disk (nodesWith disk ip)) (ip.inum, p) w.toNat) :=
    h.ledger.mark hcap hfree (by rw [h.refs_self, hp])
  refine ⟨⟨⟨h.small, ?_, ?_, ?_⟩, ?_, ?_, ?_, ?_, ?_⟩, ?_, by omega⟩
  · rw [putWord_inum]
    exact h.number
  · rw [putWord_type]
    exact h.allocated
  · rw [h.refs_put hkeep hput, hw]
    cases p with
    | slot k => exact hledger
    | entry j =>
        have hind := hentry j rfl
        have hkey : Function.update (refs sb disk (nodesWith disk ip)) (ip.inum, Place.entry j) w.toNat
            (ip.inum, .indirect) = ip.indirect := by
          rw [Function.update_of_ne (by simp), h.refs_self]
          rfl
        have := hledger.write_data (k := (ip.inum, .indirect)) (by rwa [hkey])
          ((mark sb disk w.toNat ip.indirect).setWord j w)
        rwa [hkey] at this
  · cases p <;> rfl
  · intro q hq
    rw [word_putWord hput, if_neg, h.word_of_bitmap hkeep]
    rintro rfl
    exact hq hp
  · intro q hq
    by_cases hqp : q = p
    · refine .inr ?_
      rw [haddr, if_pos hqp]
      refine ⟨by omega, by rw [word_putWord hput, if_pos hqp]; exact hlt, ?_⟩
      intro hne o ho
      have hsame : (putWord (mark sb disk w.toNat) ip w p).1 w.toNat =
          mark sb disk w.toNat w.toNat := by
        cases p with
        | slot k => rfl
        | entry j =>
            refine Function.update_of_ne ?_ _ _
            intro heq
            refine hno (ip.inum, .indirect) ?_
            rw [h.refs_self]
            exact heq.symm
      rw [hsame]
      exact hzero o ho
    · exact .inl (by rw [word_putWord hput, if_neg hqp, h.word_of_bitmap hkeep])
  · intro b hb hbm hne
    rw [← hkeep b hbm]
    cases p with
    | slot k => rfl
    | entry j => exact Function.update_of_ne (fun hc => hne hc.symm) _ _
  · have hmiss : missing (putWord (mark sb disk w.toNat) ip w p).1
        (putWord (mark sb disk w.toNat) ip w p).2.toDinode = (missing disk ip.toDinode).erase p := by
      ext q
      simp only [missing, Finset.mem_filter, Finset.mem_erase, Finset.mem_univ, true_and, haddr]
      by_cases hq : q = p
      · simp only [hq, if_true, ne_eq, not_true_eq_false, false_and, iff_false]
        omega
      · simp [hq]
    have hmark : freeBlocks sb (putWord (mark sb disk w.toNat) ip w p).1 =
        (freeBlocks sb disk).erase w.toNat := by
      rw [← freeBlocks_mark]
      refine freeBlocks_congr ?_
      intro b hb
      cases p with
      | slot k => rfl
      | entry j =>
          refine Function.update_of_ne ?_ _ _
          rintro rfl
          exact h.indirect_not_bitmap (hentry j rfl) hb
    have hpm : p ∈ missing disk ip.toDinode := by simp [missing, hp]
    have hwm : w.toNat ∈ freeBlocks sb disk := by simp [freeBlocks, hcap, hfree]
    have h1 := Finset.card_erase_add_one hpm
    have h2 := Finset.card_erase_add_one hwm
    rw [hmiss, hmark]
    omega
  · rw [haddr, if_pos rfl]

end Alloc

/-! ## `bmap` -/

section Bmap

variable {sb : Superblock} {s : Bufs} {ip : Inode}

/-- Without a free block there is no room for what is missing. -/
theorem not_room_of_full {p : Place} (hfull : ∀ b, b < sb.cap → marked sb s.disk b)
    (hp : ip.addr s.disk p = 0) : ¬ Room sb s.disk ip := by
  have hfree : (freeBlocks sb s.disk).card = 0 := by
    rw [Finset.card_eq_zero, freeBlocks, Finset.filter_eq_empty_iff]
    intro b hb
    exact not_not.mpr (hfull b (Finset.mem_range.mp hb))
  have hmiss : 0 < (missing s.disk ip.toDinode).card :=
    Finset.card_pos.mpr ⟨p, by simp [missing, hp]⟩
  unfold Room
  omega

theorem bmapSlot_ends (h : Holding sb s.disk ip) (hq : Quiet sb s.busy) (k : Fin 13) :
    Ends (bmapSlot ip k) s (¬ Room sb s.disk ip) fun r t =>
      t.busy = s.busy ∧ Grows sb s.disk ip t.disk r.2 ∧ r.1.toNat = r.2.addr t.disk (.slot k) ∧
        r.1 ≠ 0 := by
  unfold bmapSlot
  by_cases h0 : addrOf ip.type (ip.addrs k) = 0
  · have hp : ip.addr s.disk (.slot k) = 0 := congrArg UInt32.toNat h0
    simp only [h0, if_true]
    refine ends_bind ((balloc_ends h.ledger.super h.small hq).mono (fun hf => not_room_of_full hf hp)
      fun _ _ hr => hr) ?_
    rintro w t ⟨hcap, hlt, hfree, rfl⟩
    obtain ⟨hgrow, haddr, hpos⟩ := h.grow hcap hlt hfree hp (fun j hj => absurd hj (by simp))
    rw [addrOf_of_lt hlt]
    exact ends_pure ⟨rfl, hgrow, haddr.symm, fun hc => hpos (congrArg UInt32.toNat hc)⟩
  · simp only [h0, if_false]
    exact ends_pure ⟨rfl, Grows.refl h, rfl, h0⟩

theorem bmapEntry_ends (h : Holding sb s.disk ip) (hbusy : s.busy = []) (hind : ip.indirect ≠ 0)
    (j : Fin 128) :
    Ends (bmapEntry ip.type ip.indirect j) s (¬ Room sb s.disk ip) fun r t =>
      t.busy = [] ∧ Grows sb s.disk ip t.disk ip ∧ r.toNat = ip.addr t.disk (.entry j) ∧ r ≠ 0 := by
  unfold bmapEntry
  have hnot : ip.indirect ∉ s.busy := by
    rw [hbusy]
    exact List.not_mem_nil
  refine ends_step (bread_ok hnot (by rw [hbusy]; decide)) ?_
  have hword : ip.word s.disk (.entry j) = (s.disk ip.indirect).word j := by
    simp only [Dinode.word, if_neg hind]
  by_cases h0 : addrOf ip.type ((s.disk ip.indirect).word j) = 0
  · have hp : ip.addr s.disk (.entry j) = 0 := by
      rw [Dinode.addr, hword, h0]
      rfl
    have hq : Quiet sb (ip.indirect :: s.busy) := by
      rw [hbusy]
      refine ⟨?_, by simp [nbuf]⟩
      intro b hb
      rw [List.mem_singleton.mp hb, ← Dinode.addr_indirect ip.toDinode s.disk]
      exact (h.inside (p := .indirect) hind).1
    simp only [h0, if_true]
    refine ends_bind ((balloc_ends (s := { s with busy := ip.indirect :: s.busy }) h.ledger.super
      h.small hq).mono (fun hf => not_room_of_full hf hp) fun _ _ hr => hr) ?_
    rintro w t ⟨hcap, hlt, hfree, rfl⟩
    obtain ⟨hgrow, haddr, hpos⟩ := h.grow hcap hlt hfree hp (fun _ _ => hind)
    have hsame : mark sb s.disk w.toNat ip.indirect = s.disk ip.indirect :=
      mark_of_not_bitmap hcap (h.indirect_not_bitmap hind)
    refine ends_step (bwrite_ok List.mem_cons_self _) ?_
    refine ends_step (brelse_ok List.mem_cons_self) ?_
    rw [addrOf_of_lt hlt]
    simp only [putWord, hsame] at hgrow haddr
    refine ends_pure ⟨?_, hgrow, haddr.symm, fun hc => hpos (congrArg UInt32.toNat hc)⟩
    simp only [List.erase_cons_head, hbusy]
  · simp only [h0, if_false]
    refine ends_step (brelse_ok List.mem_cons_self) ?_
    simp only [List.erase_cons_head]
    refine ends_pure ⟨hbusy, Grows.refl h, ?_, h0⟩
    rw [Dinode.addr, hword]

/-- The place of the address of block `bn`. -/
def blockPlace (bn : Nat) : Place :=
  if h : bn < ndirect then .slot ⟨bn, direct_lt h⟩ else .entry (Fin.ofNat 128 (bn - ndirect))

theorem blockPlace_ne_indirect (bn : Nat) : blockPlace bn ≠ .indirect := by
  unfold blockPlace
  split
  · rename_i hbn
    intro heq
    have := congrArg Fin.val (Place.slot.inj heq)
    simp only [ndirect] at hbn this
    exact absurd this (by simp; omega)
  · simp

/-- `bmap` finds or makes the block. -/
theorem bmap_ends (h : Holding sb s.disk ip) (hbusy : s.busy = []) (bn : Nat) :
    Ends (bmap ip bn) s (maxfile ≤ bn ∨ ¬ Room sb s.disk ip) fun r t =>
      bn < maxfile ∧ t.busy = [] ∧ Grows sb s.disk ip t.disk r.2 ∧
        r.1.toNat = r.2.addr t.disk (blockPlace bn) ∧ r.1 ≠ 0 := by
  have hq : Quiet sb s.busy := by
    rw [hbusy]
    exact Quiet.nil
  unfold bmap
  by_cases hd : bn < ndirect
  · rw [dif_pos hd]
    refine (bmapSlot_ends h hq _).mono .inr ?_
    rintro r t ⟨hb, hg, ha, hne⟩
    refine ⟨by simp only [ndirect] at hd; simp only [maxfile]; omega, hb.trans hbusy, hg, ?_, hne⟩
    rw [ha, blockPlace, dif_pos hd]
  rw [dif_neg hd]
  by_cases hi : bn - ndirect < nindirect
  · rw [if_pos hi]
    refine ends_bind ((bmapSlot_ends h hq 12).mono .inr fun _ _ hr => hr) ?_
    rintro ⟨ind, ip'⟩ t ⟨hb, hg, ha, hne⟩
    have hind : ip'.indirect = ind.toNat := ha.symm
    have hpos : ip'.indirect ≠ 0 := by
      rw [hind]
      exact fun hc => hne (UInt32.toNat_inj.mp hc)
    have hj : ((Fin.ofNat 128 (bn - ndirect) : Fin 128) : Nat) = bn - ndirect := by
      simp only [nindirect] at hi
      simp only [Fin.ofNat]
      omega
    have hentry := bmapEntry_ends hg.holding (hb.trans hbusy) hpos (Fin.ofNat 128 (bn - ndirect))
    rw [hind, hj] at hentry
    refine ends_bind (hentry.mono (fun hr => .inr (mt hg.room.mpr hr)) fun _ _ hr => hr) ?_
    rintro r u ⟨hb', hg', ha', hne'⟩
    refine ends_pure ⟨?_, hb', hg.trans hg', ?_, hne'⟩
    · simp only [ndirect, nindirect] at hd hi
      simp only [maxfile]
      omega
    · rw [ha', blockPlace, dif_neg hd]
  · rw [if_neg hi]
    refine ends_halt (.inl ?_)
    simp only [ndirect, nindirect] at hd hi
    simp only [maxfile]
    omega

/-- `bmap` of a block that is there changes nothing. -/
theorem bmap_assigned (hbusy : s.busy = []) {bn : Nat} (hbn : bn < maxfile)
    (ha : ip.addr s.disk (blockPlace bn) ≠ 0) :
    bmap ip bn s = .ok ((addrOf ip.type (ip.word s.disk (blockPlace bn)), ip), s) := by
  have hslot : ∀ k, ip.addr s.disk (.slot k) ≠ 0 →
      bmapSlot ip k s = .ok ((addrOf ip.type (ip.addrs k), ip), s) := by
    intro k hk
    have hne : ¬ addrOf ip.type (ip.addrs k) = 0 := fun h0 => hk (congrArg UInt32.toNat h0)
    unfold bmapSlot
    simp only [hne, if_false]
    rfl
  unfold bmap
  by_cases hd : bn < ndirect
  · rw [blockPlace, dif_pos hd] at ha ⊢
    rw [dif_pos hd, hslot _ ha]
    rfl
  have hi : bn - ndirect < nindirect := by
    simp only [maxfile, ndirect, nindirect] at hbn hd ⊢
    omega
  have hj : ((Fin.ofNat 128 (bn - ndirect) : Fin 128) : Nat) = bn - ndirect := by
    simp only [nindirect] at hi
    simp only [Fin.ofNat]
    omega
  rw [blockPlace, dif_neg hd] at ha ⊢
  have hind : ip.indirect ≠ 0 := by
    intro h0
    simp [Dinode.addr, Dinode.word, h0] at ha
  have hword : ip.word s.disk (.entry (Fin.ofNat 128 (bn - ndirect))) =
      (s.disk ip.indirect).word (bn - ndirect) := by
    simp only [Dinode.word, if_neg hind, hj]
  have hne : ¬ addrOf ip.type ((s.disk ip.indirect).word (bn - ndirect)) = 0 := by
    rw [← hword]
    exact fun h0 => ha (congrArg UInt32.toNat h0)
  have hentry : bmapEntry ip.type ip.indirect (bn - ndirect) s =
      .ok (addrOf ip.type ((s.disk ip.indirect).word (bn - ndirect)), s) := by
    have hnot : ip.indirect ∉ s.busy := by
      rw [hbusy]
      exact List.not_mem_nil
    unfold bmapEntry
    rw [bind_of_ok (bread_ok hnot (by rw [hbusy]; decide))]
    simp only [hne, if_false]
    rw [bind_of_ok (brelse_ok List.mem_cons_self), List.erase_cons_head]
    rfl
  rw [dif_neg hd, if_pos hi, bind_of_ok (hslot 12 hind)]
  have hind' : (addrOf ip.type (ip.addrs 12)).toNat = ip.indirect := rfl
  simp only [hind']
  rw [bind_of_ok hentry, hword]
  rfl

end Bmap

end Xv6
end LfsXv6
