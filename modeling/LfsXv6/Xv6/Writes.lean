import LfsXv6.Xv6.Blocks

/-!
# Writes — one turn of the loop of `writei`, and the loop

A turn finds or makes the block, changes some of its bytes and, in a checked file, stores the checksum
of the block anew.  `Turn` says all that a turn does to the disk and to the inode; what a whole call of
`writei` keeps is derived from it by the rule for the loop.
-/

namespace LfsXv6
namespace Xv6

open Lib Prog

/-- What a turn of the loop of `writei` does: the bytes `chunk` are stored from offset `o` on in the
block of place `p`. -/
structure Turn (sb : Superblock) (disk : Nat → Sector) (ip : Inode) (p : Place) (o : Nat)
    (chunk : List UInt8) (disk' : Nat → Sector) (ip' : Inode) : Prop where
  holding : Holding sb disk' ip'
  same : ip' = { ip with addrs := ip'.addrs }
  assigned : ip'.addr disk' p ≠ 0
  addr : ∀ q, ip.addr disk q ≠ 0 → ip'.addr disk' q = ip.addr disk q
  word : ∀ q, q ≠ p → ip.addr disk q ≠ 0 → ip'.word disk' q = ip.word disk q
  fresh : ∀ q, q ≠ p → ip.addr disk q = 0 → ip'.word disk' q = ip.word disk q ∨
    (ip'.addr disk' q ≠ 0 ∧ (ip'.word disk' q).toNat < 2 ^ 24 ∧
      (q ≠ .indirect → ∀ k, k < bsize → disk' (ip'.addr disk' q) k = 0))
  data : ∃ d : Sector, disk' (ip'.addr disk' p) = d.store o chunk ∧
    ∀ k, k < bsize → d k = if ip.addr disk p = 0 then 0 else disk (ip.addr disk p) k
  check : ip.type = tChecked →
    checkByte (ip'.word disk' p) = (disk' (ip'.addr disk' p)).checkSum
  kept : ∀ b, b ≠ 0 → ¬ sb.BitmapBlock b → ip'.indirect ≠ b → ip'.addr disk' p ≠ b → disk' b = disk b
  count : (missing disk' ip'.toDinode).card + (freeBlocks sb disk).card =
    (missing disk ip.toDinode).card + (freeBlocks sb disk').card

section Recheck

variable {sb : Superblock} {s : Bufs} {ip : Inode}

/-- `recheck` replaces the word of a block by one with the same address. -/
theorem recheck_ok (hbusy : s.busy = []) {bn : Nat} (hbn : bn < maxfile)
    (ha : ip.addr s.disk (blockPlace bn) ≠ 0) :
    ∃ t ip', recheck ip bn s = .ok (ip', t) ∧ t.busy = [] ∧
      (t.disk, ip') = if ip.type = tChecked then
        putWord s.disk ip (withCheck (ip.word s.disk (blockPlace bn))
          (s.disk (ip.addr s.disk (blockPlace bn))).checkSum) (blockPlace bn)
      else (s.disk, ip) := by
  unfold recheck
  by_cases ht : ip.type = tChecked
  swap
  · rw [if_neg ht, if_neg ht]
    exact ⟨s, ip, rfl, hbusy, rfl⟩
  rw [if_pos ht, if_pos ht, bind_of_ok (bmap_assigned hbusy hbn ha)]
  have hnot : ∀ b, b ∉ s.busy := by
    intro b
    rw [hbusy]
    exact List.not_mem_nil
  have hlen : s.busy.length < nbuf := by rw [hbusy]; decide
  simp only
  rw [bind_of_ok (bread_ok (hnot _) hlen), bind_of_ok (brelse_ok List.mem_cons_self),
    List.erase_cons_head]
  have haddr : (addrOf ip.type (ip.word s.disk (blockPlace bn))).toNat =
      ip.addr s.disk (blockPlace bn) := rfl
  simp only [haddr]
  unfold storeCheck
  by_cases hd : bn < ndirect
  · rw [dif_pos hd]
    refine ⟨s, _, rfl, hbusy, ?_⟩
    simp only [blockPlace, dif_pos hd, putWord]
    rfl
  rw [dif_neg hd]
  have hj : ((Fin.ofNat 128 (bn - ndirect) : Fin 128) : Nat) = bn - ndirect := by
    simp only [maxfile, ndirect] at hbn hd ⊢
    simp only [Fin.ofNat]
    omega
  have hind : ip.indirect ≠ 0 := by
    intro h0
    simp [blockPlace, dif_neg hd, Dinode.addr, Dinode.word, h0] at ha
  have hmask : (maskAddr (ip.addrs 12)).toNat = ip.indirect := by
    rw [Dinode.indirect, addrOf, if_pos ht]
  have hword : ip.word s.disk (blockPlace bn) = (s.disk ip.indirect).word (bn - ndirect) := by
    simp only [blockPlace, dif_neg hd, Dinode.word, if_neg hind, hj]
  rw [hmask, bind_of_ok (bread_ok (hnot _) hlen), bind_of_ok (bwrite_ok List.mem_cons_self _),
    bind_of_ok (brelse_ok List.mem_cons_self), List.erase_cons_head]
  refine ⟨_, ip, rfl, hbusy, ?_⟩
  rw [hword]
  simp only [blockPlace, dif_neg hd, putWord, hj]

/-- What a new checksum in the word of a block changes. -/
structure Rechecked (sb : Superblock) (disk : Nat → Sector) (ip : Inode) (p : Place)
    (disk' : Nat → Sector) (ip' : Inode) : Prop where
  holding : Holding sb disk' ip'
  same : ip' = { ip with addrs := ip'.addrs }
  addr : ∀ q, ip'.addr disk' q = ip.addr disk q
  word : ∀ q, q ≠ p → ip'.word disk' q = ip.word disk q
  check : ip.type = tChecked → checkByte (ip'.word disk' p) = (disk (ip.addr disk p)).checkSum
  kept : ∀ b, ip.indirect ≠ b → disk' b = disk b

theorem Holding.rechecked {disk disk' : Nat → Sector} {ip' : Inode} {p : Place}
    (h : Holding sb disk ip) (hp : p ≠ .indirect) (ha : ip.addr disk p ≠ 0)
    (heq : (disk', ip') = if ip.type = tChecked then
        putWord disk ip (withCheck (ip.word disk p) (disk (ip.addr disk p)).checkSum) p
      else (disk, ip)) : Rechecked sb disk ip p disk' ip' := by
  by_cases ht : ip.type = tChecked
  swap
  · rw [if_neg ht] at heq
    obtain ⟨rfl, rfl⟩ := Prod.mk.inj heq
    exact ⟨h, rfl, fun _ => rfl, fun _ _ => rfl, fun hc => absurd hc ht, fun _ _ => rfl⟩
  rw [if_pos ht] at heq
  have hput : Puttable disk ip (withCheck (ip.word disk p) (disk (ip.addr disk p)).checkSum) p := by
    refine ⟨?_, fun hc => absurd hc hp⟩
    rintro j rfl hind
    simp [Dinode.addr, Dinode.word, hind] at ha
  have hsame : (addrOf ip.type (withCheck (ip.word disk p) (disk (ip.addr disk p)).checkSum)).toNat =
      ip.addr disk p := by
    rw [Dinode.addr, ht, addrOf_withCheck]
  have hfst : disk' = (putWord disk ip _ p).1 := congrArg Prod.fst heq
  have hsnd : ip' = (putWord disk ip _ p).2 := congrArg Prod.snd heq
  rw [hfst, hsnd]
  refine ⟨h.put_same hp ha hsame, ?_, ?_, ?_, ?_, ?_⟩
  · cases p <;> rfl
  · intro q
    rw [addr_putWord hput, hsame]
    by_cases hq : q = p
    · rw [if_pos hq, hq]
    · rw [if_neg hq]
  · intro q hq
    rw [word_putWord hput, if_neg hq]
  · intro _
    rw [word_putWord hput, if_pos rfl, checkByte_withCheck]
  · intro b hb
    cases p with
    | slot k => rfl
    | entry j => exact Function.update_of_ne (Ne.symm hb) _ _

end Recheck

section Loop

variable {sb : Superblock} {s : Bufs} {ip : Inode} {β : Type} {E : Prop} {R : β → Bufs → Prop}

/-- The three steps of a turn put together. -/
theorem Turn.of_steps {disk disk₁ disk' : Nat → Sector} {ip₁ ip' : Inode} {p : Place} {o : Nat}
    {chunk : List UInt8} (hp : p ≠ .indirect) (hg : Grows sb disk ip disk₁ ip₁)
    (ha : ip₁.addr disk₁ p ≠ 0)
    (hr : Rechecked sb (Function.update disk₁ (ip₁.addr disk₁ p)
      ((disk₁ (ip₁.addr disk₁ p)).store o chunk)) ip₁ p disk' ip') :
    Turn sb disk ip p o chunk disk' ip' := by
  obtain ⟨hhold, hwords⟩ := hg.holding.write_block hp ha ((disk₁ (ip₁.addr disk₁ p)).store o chunk)
  have haddr : ∀ q, ip'.addr disk' q = ip₁.addr disk₁ q := by
    intro q
    rw [hr.addr, Dinode.addr_congr (hwords q)]
  have hind : ip'.indirect = ip₁.indirect := haddr .indirect
  have hnotind : ∀ q, q ≠ .indirect → ip₁.addr disk₁ q ≠ 0 → ip₁.indirect ≠ ip₁.addr disk₁ q := by
    intro q hq hpos heq
    exact hq (hg.holding.once hpos (q := .indirect) heq.symm)
  have hbytes : disk' (ip'.addr disk' p) = (disk₁ (ip₁.addr disk₁ p)).store o chunk := by
    rw [haddr, hr.kept _ (hnotind p hp ha), Function.update_self]
  have hdisk : ∀ b, ip₁.indirect ≠ b → ip₁.addr disk₁ p ≠ b → disk' b = disk₁ b := by
    intro b hb hne
    rw [hr.kept b hb, Function.update_of_ne (Ne.symm hne)]
  refine ⟨hr.holding, ?_, by rwa [haddr], ?_, ?_, ?_, ⟨_, hbytes, ?_⟩, ?_, ?_, ?_⟩
  · rw [hr.same, hg.same]
  · intro q hq
    rw [haddr, hg.addr hq]
  · intro q hqp hq
    rw [hr.word q hqp, hwords, hg.word q hq]
  · intro q hqp hq
    rw [hr.word q hqp, hwords, haddr]
    rcases hg.fresh q hq with hsame | ⟨hnew, hlow, hzero⟩
    · exact .inl hsame
    · refine .inr ⟨hnew, hlow, ?_⟩
      intro hqi k hk
      rw [hdisk _ (hnotind q hqi hnew) fun heq => hqp (hg.holding.once ha heq).symm]
      exact hzero hqi k hk
  · -- a new block is empty, an old one has its bytes
    intro k hk
    by_cases h0 : ip.addr disk p = 0
    · rw [if_pos h0]
      rcases hg.fresh p h0 with hsame | ⟨_, _, hzero⟩
      · refine absurd ?_ ha
        rw [Dinode.addr, hsame, hg.type_eq]
        exact h0
      · exact hzero hp k hk
    · have hin := hg.holding.inside ha
      rw [if_neg h0, ← hg.addr h0, hg.kept _ ha ?_ (hnotind p hp ha)]
      rintro ⟨_, hhi⟩
      omega
  · intro ht
    rw [hr.check (by rw [hg.type_eq]; exact ht), hbytes, Dinode.addr_congr (hwords p),
      Function.update_self]
  · intro b hb hbm hbi hbp
    rw [hind] at hbi
    rw [haddr] at hbp
    rw [hdisk b hbi hbp, hg.kept b hb hbm hbi]
  · have hmiss : missing disk' ip'.toDinode = missing disk₁ ip₁.toDinode := by
      ext q
      simp only [missing, Finset.mem_filter, haddr]
    have hfree : freeBlocks sb disk' = freeBlocks sb disk₁ := by
      refine freeBlocks_congr ?_
      rintro b hbm
      refine hdisk b ?_ ?_
      · rintro rfl
        by_cases h0 : ip₁.indirect = 0
        · rw [h0] at hbm
          have := sb.two_lt_bitmapStart
          exact absurd hbm.1 (by omega)
        · exact hg.holding.indirect_not_bitmap h0 hbm
      · rintro rfl
        have := (hg.holding.inside ha).1
        exact absurd hbm.2 (by omega)
    rw [hmiss, hfree]
    exact hg.count

/-- A turn, and then the rest of the loop. -/
theorem turn_ends {f : Inode → Prog Bufs β} (h : Holding sb s.disk ip) (hbusy : s.busy = [])
    (bn o : Nat) (chunk : List UInt8) (hE : maxfile ≤ bn ∨ ¬ Room sb s.disk ip → E)
    (hf : ∀ t ip', t.busy = [] → bn < maxfile →
      Turn sb s.disk ip (blockPlace bn) o chunk t.disk ip' → Ends (f ip') t E R) :
    Ends (do
      let (addr, ip) ← bmap ip bn
      let data ← bread addr.toNat
      bwrite addr.toNat (data.store o chunk)
      brelse addr.toNat
      let ip ← recheck ip bn
      f ip) s E R := by
  refine ends_bind ((bmap_ends h hbusy bn).mono hE fun _ _ hr => hr) ?_
  rintro ⟨a, ip₁⟩ u ⟨hbn, hb, hg, ha, hne⟩
  have hnot : a.toNat ∉ u.busy := by
    rw [hb]
    exact List.not_mem_nil
  have hpos : ip₁.addr u.disk (blockPlace bn) ≠ 0 := by
    rw [← ha]
    exact fun h0 => hne (UInt32.toNat_inj.mp h0)
  refine ends_step (bread_ok hnot (by rw [hb]; decide)) ?_
  refine ends_step (bwrite_ok List.mem_cons_self _) ?_
  refine ends_step (brelse_ok List.mem_cons_self) ?_
  simp only [List.erase_cons_head, ha]
  have hp := blockPlace_ne_indirect bn
  obtain ⟨hhold, hwords⟩ := hg.holding.write_block hp hpos
    ((u.disk (ip₁.addr u.disk (blockPlace bn))).store o chunk)
  have hpos' := hpos
  rw [← Dinode.addr_congr (hwords _)] at hpos'
  obtain ⟨t, ip', hrun, htb, heq⟩ := recheck_ok
    (s := ⟨Function.update u.disk (ip₁.addr u.disk (blockPlace bn))
      ((u.disk (ip₁.addr u.disk (blockPlace bn))).store o chunk), u.busy⟩) hb hbn hpos'
  refine ends_step hrun ?_
  exact hf t ip' htb hbn (Turn.of_steps hp hg hpos (hhold.rechecked hp hpos' heq))

theorem Turn.room {disk disk' : Nat → Sector} {ip' : Inode} {p : Place} {o : Nat} {chunk : List UInt8}
    (h : Turn sb disk ip p o chunk disk' ip') : Room sb disk' ip' ↔ Room sb disk ip := by
  have := h.count
  unfold Room
  omega

/-- **Rule for the loop of `writei`.**  What every turn keeps, the loop keeps; it panics only for a
block past the last one, or when blocks run out. -/
theorem writeiLoop_ends {I : List (Nat × Nat) → List UInt8 → (Nat → Sector) → Inode → Prop}
    (hstep : ∀ off m ps src disk ip disk' ip', I ((off, m) :: ps) src disk ip → off / bsize < maxfile →
      Turn sb disk ip (blockPlace (off / bsize)) (off % bsize) (src.take m) disk' ip' →
        I ps (src.drop m) disk' ip')
    {ps : List (Nat × Nat)} {src : List UInt8} (h : Holding sb s.disk ip) (hbusy : s.busy = [])
    (hI : I ps src s.disk ip)
    (hE : ¬ Room sb s.disk ip ∨ (∃ r ∈ ps, maxfile ≤ r.1 / bsize) → E) :
    Ends (writeiLoop ip ps src) s E fun ip' t => t.busy = [] ∧ Holding sb t.disk ip' ∧
      ip' = { ip with addrs := ip'.addrs } ∧ ∃ rest, I [] rest t.disk ip' := by
  induction ps generalizing ip src s with
  | nil => exact ends_pure ⟨hbusy, h, rfl, src, hI⟩
  | cons r ps ih =>
      obtain ⟨off, m⟩ := r
      unfold writeiLoop
      refine turn_ends h hbusy (off / bsize) (off % bsize) (src.take m) ?_ ?_
      · rintro (hbn | hroom)
        · exact hE (.inr ⟨_, List.mem_cons_self, hbn⟩)
        · exact hE (.inl hroom)
      · intro t ip' htb hbn hturn
        refine (ih hturn.holding htb (hstep _ _ _ _ _ _ _ _ hI hbn hturn) ?_).mono id ?_
        · rintro (hroom | ⟨r, hr, hmax⟩)
          · exact hE (.inl (mt hturn.room.mpr hroom))
          · exact hE (.inr ⟨r, List.mem_cons_of_mem _ hr, hmax⟩)
        · rintro ip'' u ⟨hub, hh, hsame, hrest⟩
          refine ⟨hub, hh, ?_, hrest⟩
          rw [hsame, hturn.same]

end Loop

/-! ## Back to the disk -/

section Update

variable {sb : Superblock} {disk disk' : Nat → Sector} {s : Bufs} {ip : Inode}

/-- The disk after `iupdate`. -/
def putNode (disk : Nat → Sector) (ip : Inode) : Nat → Sector :=
  Function.update disk (iblock ip.inum)
    ((disk (iblock ip.inum)).setDinode (ip.inum % ipb) ip.toDinode)

theorem iupdate_ok (hbusy : s.busy = []) :
    iupdate ip s = .ok ((), { s with disk := putNode s.disk ip }) := by
  have hnot : iblock ip.inum ∉ s.busy := by
    rw [hbusy]
    exact List.not_mem_nil
  unfold iupdate
  rw [bind_of_ok (bread_ok hnot (by rw [hbusy]; decide)), bind_of_ok (bwrite_ok List.mem_cons_self _),
    brelse_ok List.mem_cons_self, List.erase_cons_head]
  rfl

theorem dnode_putNode : dnode (putNode disk ip) = nodesWith disk ip := by
  funext j
  unfold dnode putNode nodesWith
  by_cases hj : j = ip.inum
  · rw [hj, Function.update_self, Function.update_self, dinode_setDinode_self]
  rw [Function.update_of_ne hj]
  by_cases hb : iblock j = iblock ip.inum
  · have hne : j % ipb ≠ ip.inum % ipb := by
      simp only [iblock, ipb] at hb ⊢
      omega
    rw [hb, Function.update_self, dinode_setDinode_ne hne, dnode, hb]
  · rw [Function.update_of_ne hb]
    rfl

/-- The references do not stand in the inode blocks. -/
theorem refs_congr {nodes : Nat → Dinode} (h : Ledger sb disk (refs sb disk nodes))
    (heq : ∀ b, ¬ sb.InodeBlock b → disk' b = disk b) : refs sb disk' nodes = refs sb disk nodes := by
  funext r
  by_cases hr : r.1 < sb.ninodes.toNat ∧ (nodes r.1).type ≠ 0
  · simp only [refs, if_pos hr]
    refine Dinode.addr_congr (Dinode.word_congr ?_ r.2)
    intro hind
    have href : refs sb disk nodes (r.1, .indirect) = (nodes r.1).indirect := if_pos hr
    rw [← href] at hind ⊢
    exact heq _ (h.data_of_ref hind).2.1
  · simp only [refs, if_neg hr]

/-- The inode in memory is written back. -/
theorem consistent_putNode (hsmall : sb.size.toNat ≤ 2 ^ 24) (hblock : sb.InodeBlock (iblock ip.inum))
    (h : Ledger sb disk (refs sb disk (nodesWith disk ip))) : Consistent sb (putNode disk ip) := by
  have heq : ∀ b, ¬ sb.InodeBlock b → putNode disk ip b = disk b := by
    intro b hb
    refine Function.update_of_ne ?_ _ _
    rintro rfl
    exact hb hblock
  refine ⟨hsmall, ?_⟩
  rw [dnode_putNode, refs_congr h heq]
  exact h.write_inode hblock _

/-- Only the type and the words of an inode count. -/
theorem Holding.of_words (h : Holding sb disk ip) {ip' : Inode} (hnum : ip'.inum = ip.inum)
    (htype : ip'.type = ip.type) (haddrs : ip'.addrs = ip.addrs) : Holding sb disk ip' := by
  refine ⟨h.small, by rw [hnum]; exact h.number, by rw [htype]; exact h.allocated, ?_⟩
  have hind : ip'.indirect = ip.indirect := by
    simp only [Dinode.indirect, htype, haddrs]
  have haddr : ∀ p, ip'.addr disk p = ip.addr disk p := by
    intro p
    cases p <;> simp only [Dinode.addr, Dinode.word, htype, haddrs, hind]
  have hrefs : refs sb disk (nodesWith disk ip') = refs sb disk (nodesWith disk ip) := by
    funext r
    by_cases hr : r.1 = ip.inum
    · simp only [refs, nodesWith, hnum, hr, Function.update_self, htype, haddr]
    · simp only [refs, nodesWith, hnum, Function.update_of_ne hr]
  rw [hrefs]
  exact h.ledger

theorem Holding.consistent (h : Holding sb disk ip) : Consistent sb (putNode disk ip) :=
  consistent_putNode h.small (Superblock.inodeBlock_iblock h.number) h.ledger

end Update

/-! ## Files side by side -/

/-- The words and the blocks of an inode are the same on two disks. -/
structure SameFile (disk disk' : Nat → Sector) (n : Dinode) : Prop where
  word : ∀ q, n.word disk' q = n.word disk q
  block : ∀ q, n.addr disk q ≠ 0 → disk' (n.addr disk q) = disk (n.addr disk q)

namespace SameFile

variable {sb : Superblock} {disk disk' disk'' : Nat → Sector} {n : Dinode}

theorem refl (disk : Nat → Sector) (n : Dinode) : SameFile disk disk n := ⟨fun _ => rfl, fun _ _ => rfl⟩

theorem addr (h : SameFile disk disk' n) (q : Place) : n.addr disk' q = n.addr disk q :=
  Dinode.addr_congr (h.word q)

theorem trans (h : SameFile disk disk' n) (h' : SameFile disk' disk'' n) : SameFile disk disk'' n := by
  refine ⟨fun q => (h'.word q).trans (h.word q), ?_⟩
  intro q hq
  have := h'.block q (by rwa [h.addr])
  rw [h.addr] at this
  rw [this, h.block q hq]

/-- What matters are the slots, and the disk off the metadata and off some other blocks. -/
theorem of_slots (P : Nat → Prop) (hslot : ∀ k, n.addr disk (.slot k) ≠ 0 → P (n.addr disk (.slot k)))
    (hentry : (∀ q, n.word disk' q = n.word disk q) →
      ∀ j, n.addr disk (.entry j) ≠ 0 → P (n.addr disk (.entry j)))
    (heq : ∀ b, P b → disk' b = disk b) : SameFile disk disk' n := by
  have hword : ∀ q, n.word disk' q = n.word disk q :=
    Dinode.word_congr fun hind => heq _ (hslot 12 hind)
  refine ⟨hword, ?_⟩
  intro q hq
  cases q with
  | slot k => exact heq _ (hslot k hq)
  | entry j => exact heq _ (hentry hword j hq)

/-- A block that belongs to somebody is not written with another one. -/
theorem of_refs {ip : Inode} {p : Place} (h : Holding sb disk' ip) {j : Nat} (hj : j < sb.ninodes.toNat)
    (hne : j ≠ ip.inum) (ht : n.type ≠ 0) (hnode : dnode disk' j = n)
    (hkept : ∀ b, b ≠ 0 → ¬ sb.BitmapBlock b → ip.indirect ≠ b → ip.addr disk' p ≠ b →
      disk' b = disk b) : SameFile disk disk' n := by
  have href : ∀ q, refs sb disk' (nodesWith disk' ip) (j, q) = n.addr disk' q := by
    intro q
    simp only [refs, nodesWith, Function.update_of_ne hne, hnode]
    exact if_pos ⟨hj, ht⟩
  have hself : ∀ q q', n.addr disk' q ≠ 0 → ip.addr disk' q' ≠ n.addr disk' q := by
    intro q q' hq heq
    rw [← h.refs_self, ← href] at heq
    exact hne (Prod.mk.inj (h.ledger.once _ _ (by rwa [href]) heq.symm)).1
  have hmine : ∀ q, n.addr disk' q ≠ 0 → n.addr disk' q ≠ 0 ∧ ¬ sb.BitmapBlock (n.addr disk' q) ∧
      ip.indirect ≠ n.addr disk' q ∧ ip.addr disk' p ≠ n.addr disk' q := by
    intro q hq
    refine ⟨hq, ?_, hself q .indirect hq, hself q p hq⟩
    rw [← href] at hq ⊢
    exact (h.ledger.data_of_ref hq).2.2
  refine of_slots (fun b => b ≠ 0 ∧ ¬ sb.BitmapBlock b ∧ ip.indirect ≠ b ∧ ip.addr disk' p ≠ b)
    (fun k hk => hmine (.slot k) hk) ?_ fun b hb => hkept b hb.1 hb.2.1 hb.2.2.1 hb.2.2.2
  intro hword j' hj'
  rw [← Dinode.addr_congr (hword _)] at hj' ⊢
  exact hmine _ hj'

/-- The blocks of files are not inode blocks. -/
theorem putNode {nodes : Nat → Dinode} {ip : Inode} (h : Ledger sb disk (refs sb disk nodes)) {j : Nat}
    (hj : j < sb.ninodes.toNat) (ht : (nodes j).type ≠ 0) (hblock : sb.InodeBlock (iblock ip.inum)) :
    SameFile disk (Xv6.putNode disk ip) (nodes j) := by
  have href : ∀ q, refs sb disk nodes (j, q) = (nodes j).addr disk q := fun q => if_pos ⟨hj, ht⟩
  have hmine : ∀ q, (nodes j).addr disk q ≠ 0 → ¬ sb.InodeBlock ((nodes j).addr disk q) := by
    intro q hq
    rw [← href] at hq ⊢
    exact (h.data_of_ref hq).2.1
  refine of_slots (fun b => ¬ sb.InodeBlock b) (fun k hk => hmine _ hk) (fun _ j' hj' => hmine _ hj') ?_
  intro b hb
  refine Function.update_of_ne ?_ _ _
  rintro rfl
  exact hb hblock

end SameFile

/-! ## `writei` -/

section Writei

variable {sb : Superblock} {s : Bufs} {ip : Inode} {off n : UInt32} {src : List UInt8} {dev : Devsw}

/-- The number of bytes that `writei` goes for. -/
def writeCount (off n : UInt32) : UInt32 := if off + n > 71680 then 71680 - off else n

/-- The inode after the loop, with its new size. -/
def grown (ip : Inode) (off n : UInt32) : Inode :=
  if n > 0 ∧ off + n > ip.size then { ip with size := off + n } else ip

theorem writei_ends {E : Prop}
    {I : List (Nat × Nat) → List UInt8 → (Nat → Sector) → Inode → Prop}
    (hstep : ∀ off m ps src disk ip disk' ip', I ((off, m) :: ps) src disk ip → off / bsize < maxfile →
      Turn sb disk ip (blockPlace (off / bsize)) (off % bsize) (src.take m) disk' ip' →
        I ps (src.drop m) disk' ip')
    (h : Holding sb s.disk ip) (hbusy : s.busy = []) (hdev : ip.type ≠ tDev)
    (hoff : ¬ (off > ip.size ∨ off + n < off))
    (hI : I (pieces (writeCount off n).toNat off.toNat (writeCount off n).toNat) src s.disk ip)
    (hE : ¬ Room sb s.disk ip ∨ (∃ r ∈ pieces (writeCount off n).toNat off.toNat
      (writeCount off n).toNat, maxfile ≤ r.1 / bsize) → E) :
    Ends (writei dev ip src off n) s E fun r t => r.1 = (writeCount off n).toInt32 ∧ t.busy = [] ∧
      ∃ disk ip' rest, Holding sb disk ip' ∧ ip' = { ip with addrs := ip'.addrs } ∧
        I [] rest disk ip' ∧ r.2 = grown ip' off (writeCount off n) ∧ t.disk = putNode disk r.2 := by
  unfold writei
  rw [if_neg hdev, if_neg hoff]
  refine ends_bind (writeiLoop_ends hstep h hbusy hI hE) ?_
  rintro ip' t ⟨htb, hh, hsame, rest, hrest⟩
  refine ends_step (iupdate_ok htb) ?_
  exact ends_pure ⟨rfl, htb, t.disk, ip', rest, hh, hsame, hrest, rfl, rfl⟩

theorem grown_inum {n : UInt32} : (grown ip off n).inum = ip.inum := by
  unfold grown
  split <;> rfl

theorem grown_type {n : UInt32} : (grown ip off n).type = ip.type := by
  unfold grown
  split <;> rfl

theorem grown_addrs {n : UInt32} : (grown ip off n).addrs = ip.addrs := by
  unfold grown
  split <;> rfl

/-- A turn leaves the inode blocks alone. -/
theorem Turn.dnode {disk disk' : Nat → Sector} {ip' : Inode} {p : Place} {o : Nat} {chunk : List UInt8}
    (h : Turn sb disk ip p o chunk disk' ip') {j : Nat} (hj : j < sb.ninodes.toNat) :
    dnode disk' j = dnode disk j := by
  have hin := Superblock.inodeBlock_iblock hj
  have hlt := sb.bitmapStart_lt_metaBlocks
  have hne : ∀ q, ip'.addr disk' q ≠ iblock j := by
    intro q heq
    have hpos : ip'.addr disk' q ≠ 0 := by
      rw [heq]
      have := hin.1
      omega
    have := (h.holding.inside hpos).1
    have := hin.2
    omega
  rw [Xv6.dnode, Xv6.dnode, h.kept _ ?_ ?_ (hne .indirect) (hne p)]
  · have := hin.1
    omega
  · rintro ⟨hle, _⟩
    have := hin.2
    omega

/-- A turn leaves the other files alone. -/
theorem Turn.sameFile {disk disk' : Nat → Sector} {ip' : Inode} {p : Place} {o : Nat}
    {chunk : List UInt8} (h : Turn sb disk ip p o chunk disk' ip') {j : Nat}
    (hj : j < sb.ninodes.toNat) (hne : j ≠ ip.inum) (ht : (Xv6.dnode disk j).type ≠ 0) :
    SameFile disk disk' (Xv6.dnode disk j) :=
  SameFile.of_refs h.holding hj (by rw [h.same]; exact hne) ht (h.dnode hj) h.kept

/-- What `writei` keeps of a consistent disk. -/
structure Written (sb : Superblock) (disk : Nat → Sector) (ip : Inode) (disk' : Nat → Sector)
    (ip' : Inode) : Prop where
  consistent : Consistent sb disk'
  inum : ip'.inum = ip.inum
  type : ip'.type = ip.type
  node : Xv6.dnode disk' ip.inum = ip'.toDinode
  others : ∀ j, j < sb.ninodes.toNat → j ≠ ip.inum → Xv6.dnode disk' j = Xv6.dnode disk j
  files : ∀ j, j < sb.ninodes.toNat → j ≠ ip.inum → (Xv6.dnode disk j).type ≠ 0 →
    SameFile disk disk' (Xv6.dnode disk j)

theorem writei_written (hcons : Consistent sb s.disk) (hbusy : s.busy = [])
    (hnum : ip.inum < sb.ninodes.toNat) (htype : ip.type ≠ 0)
    (hsync : dnode s.disk ip.inum = ip.toDinode) {r : Int32 × Inode} {t : Bufs}
    (hrun : writei dev ip src off n s = .ok (r, t)) :
    t.busy = [] ∧ Written sb s.disk ip t.disk r.2 := by
  have hsame : ∀ {x : Int32}, (pure (x, ip) : Prog Bufs (Int32 × Inode)) s = .ok (r, t) →
      t.busy = [] ∧ Written sb s.disk ip t.disk r.2 := by
    intro x h
    cases h
    exact ⟨hbusy, hcons, rfl, rfl, hsync, fun _ _ _ => rfl, fun _ _ _ _ => SameFile.refl _ _⟩
  have hh := hcons.holding hnum htype hsync
  by_cases hdev : ip.type = tDev
  · unfold writei at hrun
    rw [if_pos hdev] at hrun
    split at hrun
    · exact hsame hrun
    · cases hw : dev.write ip.major with
      | none =>
          simp only [hw] at hrun
          exact hsame hrun
      | some write =>
          simp only [hw] at hrun
          exact hsame hrun
  by_cases hoff : off > ip.size ∨ off + n < off
  · unfold writei at hrun
    rw [if_neg hdev, if_pos hoff] at hrun
    exact hsame hrun
  have hends : Ends (writei dev ip src off n) s True _ := writei_ends
    (I := fun _ _ disk ip' => ip'.inum = ip.inum ∧
      (∀ j, j < sb.ninodes.toNat → dnode disk j = dnode s.disk j) ∧
        ∀ j, j < sb.ninodes.toNat → j ≠ ip.inum → (dnode s.disk j).type ≠ 0 →
          SameFile s.disk disk (dnode s.disk j))
    (by
      rintro off m ps src disk ip₁ disk' ip₂ ⟨hi, hnodes, hfiles⟩ _ hturn
      refine ⟨by rw [hturn.same]; exact hi, fun j hj => (hturn.dnode hj).trans (hnodes j hj), ?_⟩
      intro j hj hne ht
      have hturnj := hturn.sameFile hj (by rwa [hi]) (by rwa [hnodes j hj])
      rw [hnodes j hj] at hturnj
      exact (hfiles j hj hne ht).trans hturnj)
    hh hbusy hdev hoff ⟨rfl, fun _ _ => rfl, fun _ _ _ _ => SameFile.refl _ _⟩ fun _ => trivial
  obtain ⟨_, htb, disk, ip', _, hh', hsame', ⟨_, hnodes, hfiles⟩, hr, ht⟩ := hends.of_eq_ok hrun
  have hinum : r.2.inum = ip.inum := by
    rw [hr, grown_inum, hsame']
  have hgrown : Holding sb disk r.2 := by
    rw [hr]
    exact hh'.of_words grown_inum grown_type grown_addrs
  refine ⟨htb, ?_, hinum, ?_, ?_, ?_, ?_⟩
  · rw [ht]
    exact hgrown.consistent
  · rw [hr, grown_type, hsame']
  · rw [ht, dnode_putNode, nodesWith, hinum, Function.update_self]
  · intro j hj hne
    rw [ht, dnode_putNode, nodesWith, hinum, Function.update_of_ne hne]
    exact hnodes j hj
  · intro j hj hne htj
    refine (hfiles j hj hne htj).trans ?_
    have hnode : nodesWith disk r.2 j = dnode s.disk j := by
      rw [nodesWith, hinum, Function.update_of_ne hne, hnodes j hj]
    rw [ht, ← hnode]
    exact SameFile.putNode hgrown.ledger hj (by rwa [hnode]) (Superblock.inodeBlock_iblock hgrown.number)

end Writei

end Xv6
end LfsXv6
