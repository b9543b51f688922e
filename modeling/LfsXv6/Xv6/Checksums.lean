import LfsXv6.Lib.Total
import LfsXv6.Xv6.Files

/-!
# Checksums — what `readi` verifies, and what `stati` reports

`readi` compares every block it copies from with the checksum stored for it, and no other block.
`stati` adds up the stored checksums: those in the inode, and the first 64 of the 128 in the indirect
block, or in block 0 when the file has no indirect block.
-/

namespace LfsXv6
namespace Xv6

open Lib Prog

/-- The XOR of a list of bytes. -/
def xorSum (l : List UInt8) : UInt8 := total (· ^^^ ·) 0 l

section XorSum

variable {l l₁ l₂ : List UInt8}

theorem xorSum_append : xorSum (l₁ ++ l₂) = xorSum l₁ ^^^ xorSum l₂ := total_append

theorem xorSum_of_zero (h : ∀ x ∈ l, x = 0) : xorSum l = 0 := total_of_forall h

theorem foldl_xor {acc : UInt8} : l.foldl (· ^^^ ·) acc = acc ^^^ xorSum l := foldl_eq_total

theorem foldl_range_succ (d : Nat → UInt8) (n : Nat) :
    (List.range n).foldl (fun acc k => acc ^^^ d (k + 1)) (d 0) =
      xorSum ((List.range (n + 1)).map d) := by
  have hrange : (List.range (n + 1)).map d = d 0 :: (List.range n).map fun k => d (k + 1) := by
    rw [List.range_succ_eq_map, List.map_cons, List.map_map]
    rfl
  have hfold : (List.range n).foldl (fun acc k => acc ^^^ d (k + 1)) (d 0) =
      ((List.range n).map fun k => d (k + 1)).foldl (· ^^^ ·) (d 0) := List.foldl_map.symm
  rw [hrange, hfold, foldl_xor, xorSum, xorSum, total_cons]

/-- The checksum of a block is the XOR of its bytes. -/
theorem checkSum_eq (d : Sector) : d.checkSum = xorSum ((List.range bsize).map d) := by
  unfold Sector.checkSum
  exact foldl_range_succ d (bsize - 1)

end XorSum

/-! ## `readi` -/

section Readi

variable {s : Bufs} {ip : Inode}

/-- Every byte belongs to some turn. -/
theorem pieces_cover {fuel off n x : Nat} (hfuel : n ≤ fuel) (hlo : off ≤ x) (hhi : x < off + n) :
    ∃ r ∈ pieces fuel off n, r.1 / bsize = x / bsize := by
  induction fuel generalizing off n with
  | zero => omega
  | succ fuel ih =>
      have hmod : off % bsize < bsize := Nat.mod_lt _ (by decide)
      unfold pieces
      rw [if_neg (by omega)]
      by_cases hx : x < off + min n (bsize - off % bsize)
      · refine ⟨_, List.mem_cons_self, ?_⟩
        simp only [bsize] at hx hmod ⊢
        omega
      · have hrest : off + min n (bsize - off % bsize) ≤ x ∧ x <
            off + min n (bsize - off % bsize) + (n - min n (bsize - off % bsize)) := by omega
        obtain ⟨r, hr, hrx⟩ := ih (by omega) hrest.1 hrest.2
        exact ⟨r, List.mem_cons_of_mem _ hr, hrx⟩

/-- **Verification.**  `readi` of a checked file whose blocks are mapped fails exactly when one of the
blocks it touches differs from its stored checksum; otherwise it returns the bytes asked for.  It
changes neither the inode nor any block. -/
theorem readi_verifies (dev : Devsw) (hbusy : s.busy = []) (ht : ip.type = tChecked)
    (hmap : ∀ bn, bn * bsize < ip.size.toNat →
      bn < maxfile ∧ ip.addr s.disk (blockPlace bn) ≠ 0)
    {off n : UInt32} (hoff : off.toNat ≤ ip.size.toNat) (hn : off.toNat + n.toNat < 2 ^ 32)
    {m : Nat} (hm : m = min n.toNat (ip.size.toNat - off.toNat)) :
    ∃ r out, readi dev ip off n s = .ok (((r, out), ip), s) ∧
      (r.toInt = -1 ↔ 0 < m ∧ ∃ bn, off.toNat / bsize ≤ bn ∧ bn ≤ (off.toNat + m - 1) / bsize ∧
        xorSum ((List.range bsize).map (s.disk (ip.addr s.disk (blockPlace bn)))) ≠
          checkByte (ip.word s.disk (blockPlace bn))) ∧
      (r.toInt ≠ -1 → r.toInt = m ∧
        out = (List.range m).map fun k => byteAt s.disk ip.toDinode (off.toNat + k)) := by
  have hdev : ip.type ≠ tDev := by
    rw [ht]
    decide
  obtain ⟨r, out, hrun, hfail, hout⟩ := readi_ok dev off n hbusy hdev hmap hoff hn hm
  refine ⟨r, out, hrun, hfail.trans ?_, hout⟩
  rw [Classical.not_imp, not_forall]
  simp only [Classical.not_imp]
  constructor
  · rintro ⟨_, x, hx, hbad⟩
    have hx' := mem_pieces hx
    refine ⟨by omega, x.1 / bsize, Nat.div_le_div_right hx'.1, Nat.div_le_div_right (by omega), ?_⟩
    intro hsum
    refine hbad fun _ => ?_
    rw [checkSum_eq, hsum]
  · rintro ⟨hpos, bn, hlo, hhi, hbad⟩
    -- a block of the range is the block of some turn
    obtain ⟨x, hx₁, hx₂, rfl⟩ : ∃ x, off.toNat ≤ x ∧ x < off.toNat + m ∧ x / bsize = bn := by
      refine ⟨max off.toNat (bn * bsize), ?_, ?_, ?_⟩ <;> simp only [bsize] at hlo hhi ⊢ <;> omega
    obtain ⟨y, hy, hyx⟩ := pieces_cover (le_refl m) hx₁ hx₂
    have hin : x / bsize * bsize < ip.size.toNat := by
      simp only [bsize]
      omega
    refine ⟨ht, y, hy, fun hs => hbad ?_⟩
    rw [hyx] at hs
    rw [hs (hmap _ hin).2, checkSum_eq]

/-- A checked inode whose only block has the wrong checksum on a disk of zeroes. -/
def damaged : Inode where
  type := tChecked
  major := 0
  minor := 0
  nlink := 1
  size := 3
  addrs := Function.update (fun _ => 0) 0 0x05000007
  inum := 1

theorem readi_verifies_damaged :
    ∃ r out, readi noDevices damaged 0 3 ⟨fun _ => Sector.zeros, []⟩ =
      .ok (((r, out), damaged), ⟨fun _ => Sector.zeros, []⟩) ∧ r.toInt = -1 := by
  have hmap : ∀ bn, bn * bsize < damaged.size.toNat →
      bn < maxfile ∧ damaged.addr (fun _ => Sector.zeros) (blockPlace bn) ≠ 0 := by
    intro bn hbn
    have hsize : damaged.size.toNat = 3 := rfl
    obtain rfl : bn = 0 := by
      simp only [bsize, hsize] at hbn
      omega
    exact ⟨by decide, by decide +kernel⟩
  have hoff : (0 : UInt32).toNat ≤ damaged.size.toNat := by decide
  have hn : (0 : UInt32).toNat + (3 : UInt32).toNat < 2 ^ 32 := by decide
  obtain ⟨r, out, hrun, hiff, _⟩ := readi_verifies (s := ⟨fun _ => Sector.zeros, []⟩) noDevices rfl rfl
    hmap hoff hn (m := 3) (by decide)
  refine ⟨r, out, hrun, hiff.mpr ⟨by decide, 0, by decide, by decide, ?_⟩⟩
  rw [xorSum_of_zero fun x hx => by
    obtain ⟨k, _, rfl⟩ := List.mem_map.mp hx
    rfl]
  decide +kernel

end Readi

/-! ## Files built by writes -/

/-- A checked file without leftovers: bytes past its end are zero, and a place without a block has no
checksum. -/
structure Clean (disk : Nat → Sector) (n : Dinode) : Prop where
  type : n.type = tChecked
  beyond : ∀ x, n.size.toNat ≤ x → x / bsize < maxfile → byteAt disk n x = 0
  bare : ∀ bn, bn < maxfile → n.addr disk (blockPlace bn) = 0 →
    checkByte (n.word disk (blockPlace bn)) = 0

namespace Clean

variable {sb : Superblock} {s t : Kernel} {f : Slot} {data : List UInt8} {dev : Devsw}
variable {src : List UInt8} {off n : UInt32}

theorem sameFile {disk disk' : Nat → Sector} {n : Dinode} (h : Clean disk n)
    (hsame : SameFile disk disk' n) : Clean disk' n := by
  refine ⟨h.type, ?_, ?_⟩
  · intro x hx hbn
    rw [hsame.byteAt_eq]
    exact h.beyond x hx hbn
  · intro bn hbn ha
    rw [hsame.addr] at ha
    rw [hsame.word]
    exact h.bare bn hbn ha

/-- A turn of the loop of `writei` assigns places, or leaves their words. -/
theorem bare_turn {disk disk' : Nat → Sector} {ip ip' : Inode} {bn o : Nat} {chunk : List UInt8}
    (hturn : Turn sb disk ip (blockPlace bn) o chunk disk' ip')
    (h : ∀ bn, bn < maxfile → ip.addr disk (blockPlace bn) = 0 →
      checkByte (ip.word disk (blockPlace bn)) = 0) (bn' : Nat) (hbn' : bn' < maxfile)
    (ha : ip'.addr disk' (blockPlace bn') = 0) :
    checkByte (ip'.word disk' (blockPlace bn')) = 0 := by
  have hne : blockPlace bn' ≠ blockPlace bn := by
    intro heq
    rw [heq] at ha
    exact hturn.assigned ha
  have hold : ip.addr disk (blockPlace bn') = 0 := by
    by_contra hpos
    exact hturn.assigned_of hpos ha
  rcases hturn.fresh _ hne hold with hword | ⟨hpos, _⟩
  · rw [hword]
    exact h bn' hbn' hold
  · exact absurd ha hpos

/-- A write keeps a file clean. -/
theorem write (h : Clean s.bufs.disk (s.file f).toDinode) (hb : Backs sb f data s)
    (hlen : src.length = n.toNat) (hroom : Room sb s.bufs.disk (s.file f)) {o : Int32 × List UInt8}
    (hrun : (FileCall.write src off n).run dev f s = .ok (o, t)) :
    Clean t.bufs.disk (t.file f).toDinode := by
  by_cases href : Refused data off n
  · rw [hb.usable.write_refused dev src hb.length_eq href] at hrun
    cases hrun
    rw [Kernel.file_after rfl]
    exact h
  obtain ⟨r, node, bufs, hwrite⟩ := hb.usable.write_returns dev src off n hlen hroom hb.length_eq href
  obtain ⟨_, _, _, hwritten, hstored, hbytes, _, hsize⟩ := hb.usable.wrote hlen hb.length_eq href hwrite
  rw [hb.usable.write_run hwrite] at hrun
  cases hrun
  have hnode : dnode bufs.disk node.inum = node.toDinode := by
    rw [hwritten.inum]
    exact hwritten.node
  rw [Kernel.file_after hnode]
  change Clean bufs.disk node.toDinode
  refine ⟨hwritten.type.trans h.type, ?_, ?_⟩
  · intro x hx hbn
    rw [hsize] at hx
    have hold := hstored.byte x hbn
    rw [if_neg (by rw [hbytes]; omega)] at hold
    exact hold.trans (h.beyond x (by omega) hbn)
  · have hoff := mt (refused_iff hb.length_eq).mpr href
    have hends : Ends (writei dev (s.file f) src off n) s.bufs True _ :=
      writei_ends (I := fun _ _ disk ip => ∀ bn, bn < maxfile → ip.addr disk (blockPlace bn) = 0 →
        checkByte (ip.word disk (blockPlace bn)) = 0)
        (fun _ _ _ _ _ _ _ _ hI _ hturn => bare_turn hturn hI) hb.usable.holding hb.accounted.idle
        hb.usable.not_dev hoff h.bare fun _ => trivial
    obtain ⟨_, _, disk, ip', rest, hh, hsame, hI, hr, ht⟩ := hends.of_eq_ok hwrite
    simp only at hr ht
    have hgrown : Holding sb disk node := by
      rw [hr]
      exact hh.of_words grown_inum grown_type grown_addrs
    have hfile : SameFile disk bufs.disk node.toDinode := by
      rw [ht]
      exact hgrown.sameFile_putNode
    intro bn hbn ha
    rw [hfile.addr, hr, grown_addr] at ha
    rw [hfile.word, hr, grown_word]
    exact hI bn hbn ha

/-- Every call on the file or next to it keeps it clean. -/
theorem step (h : Clean s.bufs.disk (s.file f).toDinode) (hb : Backs sb f data s) {c : FileCall}
    (hc : c.Allowed sb f s) {o : Int32 × List UInt8} (hrun : c.run dev f s = .ok (o, t)) :
    Clean t.bufs.disk (t.file f).toDinode := by
  cases c with
  | write src off n => exact h.write hb hc.1 hc.2 hrun
  | read off n =>
      obtain ⟨r, out, hread, _⟩ := hb.read_after dev off n
      rw [hread] at hrun
      cases hrun
      rw [Kernel.file_after rfl]
      exact h
  | other c =>
      rw [FileCall.run] at hrun
      obtain ⟨x, u, hx, hrun⟩ := bind_eq_ok hrun
      cases hrun
      obtain ⟨haside, _⟩ := hb.usable.other_aside hc hx
      have hfile : t.file f = s.file f := by
        unfold Kernel.file
        rw [haside.inum, haside.node]
      rw [hfile]
      exact h.sameFile haside.file

theorem chain {cs : List FileCall} {os : List (Int32 × List UInt8)}
    (hrun : Chain (FileCall.run dev f) (FileCall.Allowed sb f) s cs os t)
    (h : Clean s.bufs.disk (s.file f).toDinode) (hb : Backs sb f data s) :
    Clean t.bufs.disk (t.file f).toDinode := by
  induction hrun generalizing data with
  | nil s => exact h
  | cons hok hrun _ ih => exact ih (h.step hb hok hrun) (hb.step hok hrun).2

end Clean

/-! ## `stati` -/

section Stati

variable {disk : Nat → Sector} {n : Dinode} {s : Bufs} {ip : Inode}

/-- The check byte stored for block `bn`. -/
def storedByte (disk : Nat → Sector) (n : Dinode) (bn : Nat) : UInt8 :=
  checkByte (n.word disk (blockPlace bn))

/-- What `stati` adds up: the direct blocks, and 64 words of the block it takes for the indirect one. -/
def statSum (disk : Nat → Sector) (n : Dinode) : UInt8 :=
  xorSum ((List.range 12).map (storedByte disk n)) ^^^
    xorSum ((List.range 64).map fun i => checkByte ((disk (maskAddr (n.addrs 12)).toNat).word i))

theorem stati_ok (hbusy : s.busy = []) :
    stati ip s = .ok ({ type := ip.type, ino := ip.inum, nlink := ip.nlink, size := ip.size,
                        checksum := statSum s.disk ip.toDinode },
      { s with busy := [(maskAddr (ip.addrs 12)).toNat] }) := by
  have hdirect : directSlots.foldl (fun acc k => acc ^^^ checkByte (ip.addrs k)) 0 =
      xorSum ((List.range 12).map (storedByte s.disk ip.toDinode)) := rfl
  have hread := bread_ok (s := s) (b := (maskAddr (ip.addrs 12)).toNat) (by simp [hbusy])
    (by rw [hbusy]; decide)
  unfold stati
  simp only
  rw [bind_of_ok hread, hbusy, hdirect, ← List.foldl_map, foldl_xor]
  rfl

/-- The words after the first twelve are those of the indirect block. -/
theorem storedByte_entry (hind : n.indirect ≠ 0) {i : Nat} (hi : i < nindirect) :
    storedByte disk n (ndirect + i) = checkByte ((disk n.indirect).word i) := by
  have hplace : blockPlace (ndirect + i) = .entry (Fin.ofNat 128 i) := by
    unfold blockPlace
    rw [dif_neg (by omega), Nat.add_sub_cancel_left]
  have hval : (Fin.ofNat 128 i : Fin 128).val = i := Nat.mod_eq_of_lt hi
  rw [storedByte, hplace, Dinode.word, if_neg hind, hval]

theorem maskAddr_indirect (ht : n.type = tChecked) : (maskAddr (n.addrs 12)).toNat = n.indirect := by
  rw [Dinode.indirect, ht]
  rfl

/-- With an indirect block `stati` adds up the blocks before block 76. -/
theorem statSum_eq (ht : n.type = tChecked) (hind : n.indirect ≠ 0) :
    statSum disk n = xorSum ((List.range 76).map (storedByte disk n)) := by
  have hentries : ((List.range 64).map fun i =>
      checkByte ((disk (maskAddr (n.addrs 12)).toNat).word i)) =
      (List.range 64).map fun i => storedByte disk n (12 + i) := by
    refine List.map_congr_left ?_
    intro i hi
    have hi' := List.mem_range.mp hi
    rw [maskAddr_indirect ht]
    exact (storedByte_entry hind (by simp only [nindirect]; omega)).symm
  have hsplit : List.range (12 + 64) = List.range 12 ++ (List.range 64).map (12 + ·) := List.range_add
  calc
    statSum disk n
      = xorSum ((List.range 12).map (storedByte disk n)) ^^^
          xorSum ((List.range 64).map fun i => storedByte disk n (12 + i)) := by
        rw [statSum, hentries]
    _ = xorSum ((List.range (12 + 64)).map (storedByte disk n)) := by
        rw [hsplit, List.map_append, xorSum_append, List.map_map]
        rfl

namespace Clean

/-- The stored check byte is the XOR of the bytes of the block, with or without a block. -/
theorem storedByte_eq (h : Clean disk n) {bn : Nat} (hbn : bn < maxfile) (hsound : Sound disk n bn) :
    storedByte disk n bn =
      xorSum ((List.range bsize).map fun k => byteAt disk n (bn * bsize + k)) := by
  have hbyte : ∀ k ∈ List.range bsize, byteAt disk n (bn * bsize + k) =
      if n.addr disk (blockPlace bn) = 0 then 0 else disk (n.addr disk (blockPlace bn)) k := by
    intro k hk
    have hk' := List.mem_range.mp hk
    have hdiv : (bn * bsize + k) / bsize = bn := by
      simp only [bsize] at hk' ⊢
      omega
    have hmod : (bn * bsize + k) % bsize = k := by
      simp only [bsize] at hk' ⊢
      omega
    rw [byteAt, hdiv, hmod]
  rw [List.map_congr_left hbyte]
  by_cases ha : n.addr disk (blockPlace bn) = 0
  · rw [storedByte, h.bare bn hbn ha, xorSum_of_zero]
    intro x hx
    obtain ⟨k, _, rfl⟩ := List.mem_map.mp hx
    rw [if_pos ha]
  · rw [storedByte, hsound ha, checkSum_eq]
    simp only [if_neg ha]

/-- The XOR of the bytes from block `b` on is the XOR of the check bytes from block `b` on. -/
theorem xorSum_drop (h : Clean disk n) (hsound : ∀ bn, bn < maxfile → Sound disk n bn)
    (hsize : n.size.toNat ≤ maxfile * bsize) {b c : Nat} (hbc : b + c = maxfile) :
    xorSum ((content disk n).drop (b * bsize)) =
      xorSum ((List.range c).map fun i => storedByte disk n (b + i)) := by
  have hdrop : (content disk n).drop (b * bsize) =
      (List.range (n.size.toNat - b * bsize)).map fun k => byteAt disk n (b * bsize + k) := by
    refine List.ext_getElem ?_ ?_
    · simp
    · intro k hk₁ hk₂
      simp [content]
  have hfit : n.size.toNat - b * bsize ≤ c * bsize := by
    rw [← hbc, Nat.add_mul] at hsize
    omega
  -- the bytes past the end are zero
  have hpast : xorSum ((List.range (c * bsize)).map fun k => byteAt disk n (b * bsize + k)) =
      xorSum ((List.range (n.size.toNat - b * bsize)).map fun k => byteAt disk n (b * bsize + k)) := by
    obtain ⟨d, hd⟩ := Nat.exists_eq_add_of_le hfit
    rw [hd, List.range_add, List.map_append, xorSum_append, xorSum_of_zero (l := List.map _ (List.map _ _)),
      UInt8.xor_zero]
    intro x hx
    obtain ⟨k, hk, rfl⟩ := List.mem_map.mp hx
    obtain ⟨j, hj, rfl⟩ := List.mem_map.mp hk
    have hj' := List.mem_range.mp hj
    refine h.beyond _ (by omega) ?_
    rw [Nat.div_lt_iff_lt_mul (by decide), ← hbc, Nat.add_mul]
    omega
  have hblock : ∀ i ∈ List.range c, total (· ^^^ ·) 0
      ((List.range bsize).map fun k => byteAt disk n (b * bsize + (i * bsize + k))) =
        storedByte disk n (b + i) := by
    intro i hi
    have hi' := List.mem_range.mp hi
    rw [h.storedByte_eq (by omega) (hsound _ (by omega))]
    simp only [Nat.add_mul, Nat.add_assoc]
    rfl
  calc
    xorSum ((content disk n).drop (b * bsize))
      = xorSum ((List.range (c * bsize)).map fun k => byteAt disk n (b * bsize + k)) := by
        rw [hdrop, hpast]
    _ = xorSum ((List.range c).map fun i => total (· ^^^ ·) 0
          ((List.range bsize).map fun k => byteAt disk n (b * bsize + (i * bsize + k)))) :=
        total_blocks c bsize _
    _ = xorSum ((List.range c).map fun i => storedByte disk n (b + i)) := by
        rw [List.map_congr_left hblock]

/-- The XOR of all bytes is that of the blocks before block 76 and that of the bytes after them. -/
theorem xorSum_content (h : Clean disk n) (hsound : ∀ bn, bn < maxfile → Sound disk n bn)
    (hsize : n.size.toNat ≤ maxfile * bsize) :
    xorSum (content disk n) = xorSum ((List.range 76).map (storedByte disk n)) ^^^
      xorSum ((content disk n).drop (76 * bsize)) := by
  have hall := h.xorSum_drop hsound hsize (b := 0) (c := maxfile) (by omega)
  have hsplit : List.range (76 + 64) = List.range 76 ++ (List.range 64).map (76 + ·) := List.range_add
  rw [Nat.zero_mul, List.drop_zero] at hall
  simp only [Nat.zero_add] at hall
  calc
    xorSum (content disk n)
      = xorSum ((List.range (76 + 64)).map (storedByte disk n)) := hall
    _ = xorSum ((List.range 76).map (storedByte disk n)) ^^^
          xorSum ((List.range 64).map fun i => storedByte disk n (76 + i)) := by
        rw [hsplit, List.map_append, xorSum_append, List.map_map]
        rfl
    _ = xorSum ((List.range 76).map (storedByte disk n)) ^^^
          xorSum ((content disk n).drop (76 * bsize)) := by
        rw [h.xorSum_drop hsound hsize (b := 76) (c := 64) rfl]

end Clean

/-- What the checksum of a file promises: it is the XOR of the bytes of the file, and without an
indirect block it depends on no block but those of the file. -/
def StatCovers (s : Bufs) (ip : Inode) : Prop :=
  ∃ st t, stati ip s = .ok (st, t) ∧ st.checksum = xorSum (content s.disk ip.toDinode) ∧
    (ip.indirect = 0 → ∀ disk', SameFile s.disk disk' ip.toDinode →
      ∃ u, stati ip { s with disk := disk' } = .ok (st, u))

/-- Block 0 belongs to no file, and without an indirect block `stati` adds up its words. -/
theorem statSum_stray (disk : Nat → Sector) (ht : n.type = tChecked) (hind : n.indirect = 0) :
    ∃ disk₁ disk₂, SameFile disk disk₁ n ∧ SameFile disk disk₂ n ∧ statSum disk₁ n ≠ statSum disk₂ n := by
  have hsame : ∀ d : Sector, SameFile disk (Function.update disk 0 d) n := by
    intro d
    refine ⟨Dinode.word_congr fun h => absurd hind h, ?_⟩
    intro q hq
    exact Function.update_of_ne hq _ _
  have hsum : ∀ d : Sector, statSum (Function.update disk 0 d) n =
      xorSum ((List.range 12).map (storedByte disk n)) ^^^
        xorSum ((List.range 64).map fun i => checkByte (d.word i)) := by
    intro d
    have hstored : storedByte (Function.update disk 0 d) n = storedByte disk n := by
      funext bn
      rw [storedByte, (hsame d).word, storedByte]
    rw [statSum, hstored, maskAddr_indirect ht, hind, Function.update_self]
  refine ⟨_, _, hsame Sector.zeros, hsame (Sector.zeros.setWord 0 0x01000000), ?_⟩
  rw [hsum, hsum]
  intro heq
  have hwords : xorSum ((List.range 64).map fun i => checkByte (Sector.zeros.word i)) =
      xorSum ((List.range 64).map fun i => checkByte ((Sector.zeros.setWord 0 0x01000000).word i)) :=
    (UInt8.xor_right_inj _).mp heq
  exact absurd hwords (by decide +kernel)

theorem not_statCovers (ht : ip.type = tChecked) (hind : ip.indirect = 0) (hbusy : s.busy = []) :
    ¬ StatCovers s ip := by
  rintro ⟨st, t, hrun, _, hfree⟩
  obtain ⟨disk₁, disk₂, hsame₁, hsame₂, hne⟩ := statSum_stray s.disk ht hind
  obtain ⟨u₁, hrun₁⟩ := hfree hind disk₁ hsame₁
  obtain ⟨u₂, hrun₂⟩ := hfree hind disk₂ hsame₂
  have hst₁ := (stati_ok (s := { s with disk := disk₁ }) hbusy).symm.trans hrun₁
  have hst₂ := (stati_ok (s := { s with disk := disk₂ }) hbusy).symm.trans hrun₂
  have hst := (Prod.mk.inj (Except.ok.inj hst₁)).1.trans (Prod.mk.inj (Except.ok.inj hst₂)).1.symm
  exact hne (congrArg Stat.checksum hst)

/-- **The checksum of a file.**  On a checked file built by writes the checksum of `stati` is the XOR
of the bytes of the file, and of nothing else, exactly when the file has an indirect block and the
bytes from block 76 on cancel out. -/
theorem stat_checksum_iff {sb : Superblock} {dev : Devsw} {f : Slot} {s t : Kernel}
    {cs : List FileCall} {os : List (Int32 × List UInt8)} (h : FreshFile sb f s)
    (ht : (s.file f).type = tChecked) (hnew : ∀ k, (s.file f).addrs k = 0)
    (hrun : Chain (FileCall.run dev f) (FileCall.Allowed sb f) s cs os t) :
    StatCovers t.bufs (t.file f) ↔ (t.file f).indirect ≠ 0 ∧
      xorSum ((content t.bufs.disk (t.file f).toDinode).drop (76 * bsize)) = 0 := by
  obtain ⟨_, hb⟩ := Backs.chain hrun h.backs
  have hclean : Clean t.bufs.disk (t.file f).toDinode := by
    refine Clean.chain hrun ⟨ht, ?_, ?_⟩ h.backs
    · intro x _ _
      rw [byteAt, if_pos (h.empty _)]
    · intro bn _ _
      have hword : (s.file f).word s.bufs.disk (blockPlace bn) = 0 := by
        cases hp : blockPlace bn with
        | slot k => exact hnew k
        | entry j => exact if_pos (h.empty .indirect)
      rw [hword]
      decide
  have hsum := hclean.xorSum_content (hb.sound hclean.type) hb.bound
  have hstat := @stati_ok t.bufs (t.file f) hb.accounted.idle
  by_cases hind : (t.file f).indirect = 0
  · exact iff_of_false (not_statCovers hclean.type hind hb.accounted.idle) fun hc => hc.1 hind
  · have hstored : statSum t.bufs.disk (t.file f).toDinode = _ := statSum_eq hclean.type hind
    constructor
    · rintro ⟨st, u, hst, hcover, _⟩
      rw [hstat] at hst
      cases hst
      simp only at hcover
      rw [hstored, hsum] at hcover
      refine ⟨hind, ?_⟩
      have hcancel : xorSum ((List.range 76).map (storedByte t.bufs.disk (t.file f).toDinode)) ^^^ 0 = _ :=
        UInt8.xor_zero.trans hcover
      exact ((UInt8.xor_right_inj _).mp hcancel).symm
    · rintro ⟨_, htail⟩
      refine ⟨_, _, hstat, ?_, fun hc => absurd hc hind⟩
      rw [hstored, hsum, htail, UInt8.xor_zero]

theorem stat_checksum_empty : ¬ StatCovers blankFile.bufs (blankFile.file 0) := by
  intro hcover
  have hrun : Chain (FileCall.run noDevices 0) (FileCall.Allowed ⟨8192, 8⟩ 0) blankFile [] [] blankFile :=
    Chain.nil blankFile
  have hiff := stat_checksum_iff blankFile_fresh (by decide +kernel) (by decide +kernel) hrun
  exact (hiff.mp hcover).1 (by decide +kernel)

/-- An empty file has no indirect block, and its checksum is that of block 0. -/
theorem not_stat_checksum :
    ¬ ∀ (sb : Superblock) (dev : Devsw) (f : Slot) (s t : Kernel) (cs : List FileCall)
      (os : List (Int32 × List UInt8)), FreshFile sb f s → (s.file f).type = tChecked →
      (∀ k, (s.file f).addrs k = 0) →
      Chain (FileCall.run dev f) (FileCall.Allowed sb f) s cs os t → StatCovers t.bufs (t.file f) := by
  intro hclaim
  have htype : (blankFile.file 0).type = tChecked := by decide +kernel
  have hind : (blankFile.file 0).indirect = 0 := by decide +kernel
  refine not_statCovers (s := blankFile.bufs) htype hind rfl ?_
  exact hclaim _ noDevices 0 blankFile blankFile [] [] blankFile_fresh htype (by decide +kernel)
    (Chain.nil blankFile)

end Stati

end Xv6
end LfsXv6
