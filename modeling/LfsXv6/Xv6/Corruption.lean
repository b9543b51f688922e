import LfsXv6.Xv6.Checksums

/-!
# Corruption — a byte of a checked file changes on the disk

`readi` compares every block with its checksum; `writei` computes the checksum of a block after it
stored its bytes, from whatever the block holds then.  A byte that changed on the disk is noticed by the
reads, once its block is read from the disk again, until a write stores into the block.  If that write
does not replace the byte, the new checksum fits the wrong byte.
-/

namespace LfsXv6
namespace Xv6

open Lib Prog

/-! ## The disk behind the buffers -/

/-- The kernel, with the sectors as `bread` delivers them, and the disk itself.  The two differ while a
sector has changed on the disk and its buffer is still valid. -/
structure Storage where
  kernel : Kernel
  platter : Nat → Sector

/-- Byte `o` of sector `b` changes on the disk. -/
def Storage.alter (m : Storage) (b o : Nat) (v : UInt8) : Storage :=
  { m with platter := Function.update m.platter b (Function.update (m.platter b) o v) }

/-- The kernel reads sector `b` from the disk again. -/
def Kernel.reload (s : Kernel) (b : Nat) (d : Sector) : Kernel :=
  { s with bufs := { s.bufs with disk := Function.update s.bufs.disk b d } }

/-- The buffer of sector `b` is used for another sector. -/
def Storage.recycle (m : Storage) (b : Nat) : Storage :=
  { m with kernel := m.kernel.reload b (m.platter b) }

/-- A call, with the sectors that it hands to `bwrite`, or the loss of a buffer. -/
inductive Event where
  | call (c : FileCall) (written : Nat → Bool)
  | recycle (b : Nat)

def Event.run (dev : Devsw) (f : Slot) : Event → Prog Storage (Int32 × List UInt8)
  | .call c written => fun m =>
      match c.run dev f m.kernel with
      | .ok (o, k) => .ok (o, ⟨k, fun b => if written b then k.bufs.disk b else m.platter b⟩)
      | .error e => .error e
  | .recycle b => fun m => .ok ((0, []), m.recycle b)

/-- The array after an event. -/
def Event.onArray (data : List UInt8) : Event → List UInt8
  | .call c _ => (c.onArray data).2
  | .recycle _ => data

/-- The sector of byte `x` of the file. -/
def Kernel.sectorOf (s : Kernel) (f : Slot) (x : Nat) : Nat :=
  (s.file f).addr s.bufs.disk (blockPlace (x / bsize))

/-- Where a write that is not turned down stores its bytes, and how many. -/
def FileCall.range (f : Slot) (s : Kernel) : FileCall → Option (Nat × Nat)
  | .write _ off n =>
      if Refused (content s.bufs.disk (s.file f).toDinode) off n then none
      else some (off.toNat, min n.toNat (maxfile * bsize - off.toNat))
  | _ => none

/-- The calls that are considered: a write has its bytes, and the other calls make inodes, look them up
and write to them. -/
def FileCall.Proper (sb : Superblock) (f : Slot) (s : Kernel) : FileCall → Prop
  | .write src _ n => src.length = n.toNat
  | .read _ _ => True
  | .other c => (FileCall.other c).Allowed sb f s

/-- A sector that is not handed to `bwrite` stays as it is, and no write stores its bytes there. -/
def Event.Allowed (sb : Superblock) (dev : Devsw) (f : Slot) (m : Storage) : Event → Prop
  | .call c written => c.Proper sb f m.kernel ∧
      (∀ o k, c.run dev f m.kernel = .ok (o, k) →
        ∀ b, ¬ written b → k.bufs.disk b = m.kernel.bufs.disk b) ∧
      ∀ r ∈ c.range f m.kernel, ∀ x, r.1 ≤ x ∧ x < r.1 + r.2 → m.kernel.sectorOf f x ≠ 0 →
        written (m.kernel.sectorOf f x)
  | .recycle _ => True

/-- No write stores into the block of byte `x` while the block does not fit its checksum, unless the
write replaces the byte or leaves it past the end of the file. -/
def Event.Careful (f : Slot) (x : Nat) (m : Storage) : Event → Prop
  | .call c _ => ∀ r ∈ c.range f m.kernel, Touches r.1 r.2 (x / bsize) →
      ¬ Sound m.kernel.bufs.disk (m.kernel.file f).toDinode (x / bsize) →
        r.1 ≤ x ∧ x < r.1 + r.2 ∨ (m.kernel.file f).size.toNat ≤ x ∧ r.1 + r.2 ≤ x
  | .recycle _ => True

/-- The sectors that are handed to `bwrite`. -/
def Event.writes : Event → Nat → Bool
  | .call _ written => written
  | .recycle _ => fun _ => false

/-- No write replaces byte `x`. -/
def Event.Spares (f : Slot) (x : Nat) (m : Storage) : Event → Prop
  | .call c _ => ∀ r ∈ c.range f m.kernel, ¬ (r.1 ≤ x ∧ x < r.1 + r.2)
  | .recycle _ => True

/-! ## One byte of a block -/

section Sums

variable {d : Sector} {o n : Nat} {v : UInt8}

theorem xorSum_update (ho : o < n) :
    xorSum ((List.range n).map (Function.update d o v)) =
      xorSum ((List.range n).map d) ^^^ (d o ^^^ v) := by
  induction n with
  | zero => omega
  | succ n ih =>
      have hlast : ∀ e : Sector, xorSum ((List.range (n + 1)).map e) =
          xorSum ((List.range n).map e) ^^^ e n := by
        intro e
        have hone : xorSum ([n].map e) = e n := by
          show 0 ^^^ e n = e n
          exact UInt8.zero_xor
        rw [List.range_succ, List.map_append, xorSum_append, hone]
      rw [hlast, hlast]
      by_cases hon : o = n
      · subst hon
        have hmap : (List.range o).map (Function.update d o v) = (List.range o).map d := by
          refine List.map_congr_left fun k hk => ?_
          exact Function.update_of_ne (List.mem_range.mp hk).ne _ _
        rw [hmap, Function.update_self, UInt8.xor_assoc, ← UInt8.xor_assoc (d o), UInt8.xor_self,
          UInt8.zero_xor]
      · rw [ih (by omega), Function.update_of_ne (Ne.symm hon), UInt8.xor_assoc,
          UInt8.xor_comm (d o ^^^ v), ← UInt8.xor_assoc]

/-- A single byte shows in the checksum. -/
theorem checkSum_update_ne (ho : o < bsize) (hv : v ≠ d o) :
    Sector.checkSum (Function.update d o v) ≠ d.checkSum := by
  rw [checkSum_eq, checkSum_eq, xorSum_update ho]
  intro heq
  have hzero : d o ^^^ v = 0 := by
    have hcancel : xorSum ((List.range bsize).map d) ^^^ (d o ^^^ v) =
        xorSum ((List.range bsize).map d) ^^^ 0 := heq.trans UInt8.xor_zero.symm
    exact (UInt8.xor_right_inj _).mp hcancel
  exact hv (UInt8.xor_eq_zero_iff.mp hzero).symm

end Sums

/-! ## What a call can do -/

namespace Usable

variable {sb : Superblock} {dev : Devsw} {f : Slot} {s t : Kernel} {data : List UInt8} {c : FileCall}
variable {o : Int32 × List UInt8}

/-- A call leaves the file as it is, or it is a write that stores its bytes. -/
theorem call_cases (h : Usable sb f s) (hc : c.Proper sb f s) (hrun : c.run dev f s = .ok (o, t)) :
    (c.range f s = none ∧ Usable sb f t ∧ t.file f = s.file f ∧
      SameFile s.bufs.disk t.bufs.disk (s.file f).toDinode ∧
        ∀ data : List UInt8, data.length = (s.file f).size.toNat → (c.onArray data).2 = data) ∨
    ∃ src off n node bufs, c = .write src off n ∧ t = s.after f bufs node ∧
      c.range f s = some (off.toNat, (writeCount off n).toNat) ∧
      (∀ data : List UInt8, data.length = (s.file f).size.toNat → ¬ Refused data off n) ∧
      Wrote sb f s off n src node bufs := by
  have hlength : (content s.bufs.disk (s.file f).toDinode).length = (s.file f).size.toNat :=
    length_content _ _
  obtain ⟨hfile, hsame⟩ := h.after_same
  cases c with
  | read off n =>
      obtain ⟨r, out, hread, _⟩ := h.read_after dev off n hlength
      rw [hread] at hrun
      cases hrun
      exact .inl ⟨rfl, hsame, hfile, SameFile.refl _ _, fun _ _ => rfl⟩
  | other c =>
      rw [FileCall.run] at hrun
      obtain ⟨x, u, hx, hrun⟩ := bind_eq_ok hrun
      cases hrun
      obtain ⟨haside, hacc⟩ := h.other_aside hc hx
      obtain ⟨hfile', hafter⟩ := h.aside haside hacc
      exact .inl ⟨rfl, hafter, hfile', haside.file, fun _ _ => rfl⟩
  | write src off n =>
      have hrefused : ∀ data : List UInt8, data.length = (s.file f).size.toNat →
          (Refused data off n ↔ Refused (content s.bufs.disk (s.file f).toDinode) off n) := by
        intro data hdata
        unfold Refused
        rw [hdata, hlength]
      by_cases href : Refused (content s.bufs.disk (s.file f).toDinode) off n
      · rw [h.write_refused dev src hlength href] at hrun
        cases hrun
        refine .inl ⟨if_pos href, hsame, hfile, SameFile.refl _ _, fun data hdata => ?_⟩
        rw [FileCall.onArray, arrayWrite, if_pos ((hrefused data hdata).mpr href)]
      · rw [FileCall.run] at hrun
        obtain ⟨r, u, hlocked, hrun⟩ := bind_eq_ok hrun
        cases hrun
        obtain ⟨node, bufs, hx, rfl⟩ :=
          locked_eq_ok h.accounted h.held h.unlocked h.allocated hlocked
        obtain ⟨_, hw⟩ := h.wrote hc hlength href hx
        refine .inr ⟨src, off, n, node, bufs, rfl, rfl, ?_, fun data hdata => ?_, hw⟩
        · rw [FileCall.range, if_neg href, hw.count]
        · rwa [hrefused data hdata]

/-- A block that no bytes are stored in keeps its place, its word and its bytes. -/
theorem block_kept (h : Usable sb f s) (hc : c.Proper sb f s) (hrun : c.run dev f s = .ok (o, t))
    {bn : Nat} (hbn : bn < maxfile) (ha : (s.file f).addr s.bufs.disk (blockPlace bn) ≠ 0)
    (hno : ∀ r ∈ c.range f s, ¬ Touches r.1 r.2 bn) :
    (t.file f).type = (s.file f).type ∧
      (t.file f).word t.bufs.disk (blockPlace bn) = (s.file f).word s.bufs.disk (blockPlace bn) ∧
      t.bufs.disk ((s.file f).addr s.bufs.disk (blockPlace bn)) =
        s.bufs.disk ((s.file f).addr s.bufs.disk (blockPlace bn)) := by
  rcases h.call_cases hc hrun with
    ⟨_, _, hfile, hsame, _⟩ | ⟨src, off, n, node, bufs, rfl, rfl, hr, _, hw⟩
  · rw [hfile]
    exact ⟨rfl, hsame.word _, hsame.block _ ha⟩
  · have hnot := hno _ hr
    rw [← hw.length] at hnot
    obtain ⟨hword, hblock⟩ := (hw.stored.untouched bn hbn hnot).2 ha
    rw [hw.file]
    exact ⟨hw.written.type, hword, hblock⟩

end Usable

/-! ## A damaged file -/

/-- Byte `x` of a checked file is wrong, and the checksum of its block says so; all else is right. -/
structure Hurt (sb : Superblock) (f : Slot) (data : List UInt8) (x : Nat) (s : Kernel) : Prop where
  usable : Usable sb f s
  checked : (s.file f).type = tChecked
  length : data.length = (s.file f).size.toNat
  block : s.sectorOf f x ≠ 0
  byte : ∀ y (hy : y < data.length), y ≠ x → byteAt s.bufs.disk (s.file f).toDinode y = data[y]
  sound : ∀ bn, bn < maxfile → bn ≠ x / bsize → Sound s.bufs.disk (s.file f).toDinode bn
  broken : ¬ Sound s.bufs.disk (s.file f).toDinode (x / bsize)

section Soundness

variable {disk disk' : Nat → Sector} {n n' : Dinode} {bn : Nat}

/-- Whether a block fits its checksum depends on its word and its bytes. -/
theorem sound_congr (htype : n'.type = n.type)
    (hword : n'.word disk' (blockPlace bn) = n.word disk (blockPlace bn))
    (hblock : disk' (n.addr disk (blockPlace bn)) = disk (n.addr disk (blockPlace bn))) :
    Sound disk' n' bn ↔ Sound disk n bn := by
  have haddr : n'.addr disk' (blockPlace bn) = n.addr disk (blockPlace bn) := by
    rw [Dinode.addr, htype, hword, Dinode.addr]
  unfold Sound
  rw [haddr, hword, hblock]

end Soundness

namespace Hurt

variable {sb : Superblock} {dev : Devsw} {f : Slot} {s t : Kernel} {data : List UInt8} {c : FileCall}
variable {o : Int32 × List UInt8} {x : Nat}

/-- A read returns the right bytes or fails. -/
theorem read (h : Hurt sb f data x s) (hx : x / bsize < maxfile) (dev : Devsw) (off n : UInt32) :
    ∃ r out t, (FileCall.read off n).run dev f s = .ok ((r, out), t) ∧
      (r.toInt ≠ -1 → (r.toInt, out) = arrayRead data off n) ∧
      (off.toNat ≤ x ∧ x < off.toNat + n.toNat ∧ x < data.length → r.toInt = -1) := by
  obtain ⟨r, out, hrun, ⟨href, rfl, rfl⟩ | ⟨href, hfail, hout⟩⟩ := h.usable.read_after dev off n h.length
  · exact ⟨-1, [], _, hrun, fun hne => absurd rfl hne, fun _ => rfl⟩
  have hnot := href
  unfold Refused at hnot
  generalize hm : min n.toNat (data.length - off.toNat) = m at hfail hout
  have hunsound : (∃ y, off.toNat ≤ y ∧ y < off.toNat + m ∧ y / bsize = x / bsize) → r.toInt = -1 := by
    rintro ⟨y, hlo, hhi, hyx⟩
    refine hfail.mpr fun hall => ?_
    obtain ⟨p, hp, hpy⟩ := pieces_cover (le_refl m) hlo hhi
    have hs := hall h.checked p hp
    rw [hpy, hyx] at hs
    exact h.broken hs
  refine ⟨r, out, _, hrun, fun hgood => ?_, ?_⟩
  · -- no byte that was read lies in the damaged block
    obtain ⟨hr, rfl⟩ := hout hgood
    rw [arrayRead, if_neg href, hr, hm]
    congr 1
    refine List.ext_getElem ?_ fun k hk hk' => ?_
    · simp only [List.length_map, List.length_range, List.length_take, List.length_drop]
      omega
    · rw [List.length_map, List.length_range] at hk
      rw [List.getElem_map, List.getElem_range, List.getElem_take, List.getElem_drop]
      refine h.byte _ (by omega) ?_
      rintro rfl
      exact hgood (hunsound ⟨off.toNat + k, by omega, by omega, rfl⟩)
  · rintro ⟨hlo, hhi, hlen⟩
    exact hunsound ⟨x, hlo, by omega, rfl⟩

/-- A call that stores nothing in the damaged block. -/
theorem kept (h : Hurt sb f data x s) (hx : x / bsize < maxfile) (hc : c.Proper sb f s)
    (hrun : c.run dev f s = .ok (o, t)) (hno : ∀ r ∈ c.range f s, ¬ Touches r.1 r.2 (x / bsize)) :
    Hurt sb f (c.onArray data).2 x t := by
  obtain ⟨htype, hword, hblock⟩ := h.usable.block_kept hc hrun hx h.block hno
  have haddr : t.sectorOf f x = s.sectorOf f x := by
    rw [Kernel.sectorOf, Dinode.addr, htype, hword, ← Dinode.addr, Kernel.sectorOf]
  have hbroken := mt (sound_congr htype hword hblock).mp h.broken
  rcases h.usable.call_cases hc hrun with
    ⟨_, husable, hfile, hsame, harray⟩ | ⟨src, off, n, node, bufs, rfl, rfl, hr, href, hw⟩
  · rw [harray data h.length]
    refine ⟨husable, htype.trans h.checked, ?_, by rw [haddr]; exact h.block, ?_, ?_, hbroken⟩
    · rw [hfile]
      exact h.length
    · intro y hy hne
      rw [hfile, hsame.byteAt_eq]
      exact h.byte y hy hne
    · intro bn hbn hne
      rw [hfile]
      exact hsame.sound (h.sound bn hbn hne)
  · have hbytes := hw.length
    have hnot := href data h.length
    have hoff : off.toNat ≤ data.length := by
      unfold Refused at hnot
      omega
    have hdata : ((FileCall.write src off n).onArray data).2 =
        overwrite data off.toNat (src.take (writeCount off n).toNat) := by
      rw [FileCall.onArray, arrayWrite, if_neg hnot, hw.count]
    have hlen := length_overwrite data (src.take (writeCount off n).toNat) hoff
    rw [hbytes] at hlen
    have hbound := hw.usable.bound
    rw [hw.file] at htype hbroken hbound
    rw [hdata]
    refine ⟨hw.usable, by rw [hw.file]; exact htype.trans h.checked, ?_, by rw [haddr]; exact h.block,
      ?_, ?_, by rw [hw.file]; exact hbroken⟩
    · rw [hw.file, hw.size, hlen, h.length]
    · intro y hy hne
      rw [hw.file]
      refine byteAt_stored hw.stored hoff ?_ hy fun hy' _ => h.byte y hy' hne
      rw [hlen, h.length, ← hw.size] at hy
      simp only [maxfile, bsize] at hbound ⊢
      omega
    · intro bn hbn hne
      rw [hw.file]
      by_cases htouch : Touches off.toNat (writeCount off n).toNat bn
      · exact hw.stored.touched h.checked bn hbn (by rwa [hbytes])
      · exact (hw.stored.untouched bn hbn (by rwa [hbytes])).1 (h.sound bn hbn hne)

/-- A write that stores into the damaged block, and replaces the byte or leaves it past the end. -/
theorem healed (h : Hurt sb f data x s) (hc : c.Proper sb f s) (hrun : c.run dev f s = .ok (o, t))
    {r : Nat × Nat} (hr : r ∈ c.range f s) (htouch : Touches r.1 r.2 (x / bsize))
    (hcare : r.1 ≤ x ∧ x < r.1 + r.2 ∨ data.length ≤ x ∧ r.1 + r.2 ≤ x) :
    Backs sb f (c.onArray data).2 t ∧ (t.file f).type = tChecked := by
  rcases h.usable.call_cases hc hrun with
    ⟨hnone, _⟩ | ⟨src, off, n, node, bufs, rfl, rfl, hsome, href, hw⟩
  · rw [hnone] at hr
    cases hr
  · rw [hsome] at hr
    cases hr
    have hnot := href data h.length
    have hdata : ((FileCall.write src off n).onArray data).2 =
        overwrite data off.toNat (src.take (writeCount off n).toNat) := by
      rw [FileCall.onArray, arrayWrite, if_neg hnot, hw.count]
    rw [hdata, hw.file]
    refine ⟨hw.backs h.length hnot ?_ ?_, hw.written.type.trans h.checked⟩
    · intro y hy hout
      refine h.byte y hy ?_
      rintro rfl
      simp only at hcare
      omega
    · intro _ bn hbn hun
      refine h.sound bn hbn ?_
      rintro rfl
      exact hun htouch

/-- **A write hides the damage.**  After a write that stores into the block and keeps the wrong byte, a
read of the byte returns it. -/
theorem masked (h : Hurt sb f data x s) (hx : x / bsize < maxfile) (hc : c.Proper sb f s)
    (hrun : c.run dev f s = .ok (o, t)) {r : Nat × Nat} (hr : r ∈ c.range f s)
    (htouch : Touches r.1 r.2 (x / bsize)) (hout : ¬ (r.1 ≤ x ∧ x < r.1 + r.2)) (hin : x < data.length) :
    ∃ r out u, (FileCall.read (UInt32.ofNat x) 1).run dev f t = .ok ((r, out), u) ∧ r.toInt = 1 ∧
      out = [byteAt s.bufs.disk (s.file f).toDinode x] := by
  rcases h.usable.call_cases hc hrun with
    ⟨hnone, _⟩ | ⟨src, off, n, node, bufs, rfl, rfl, hsome, href, hw⟩
  · rw [hnone] at hr
    cases hr
  rw [hsome] at hr
  cases hr
  simp only at htouch hout
  have hlen := h.length
  have hbound := hw.usable.bound
  have hsize := hw.size
  rw [← hw.file] at hsize
  have hx32 : (UInt32.ofNat x).toNat = x := by
    rw [UInt32.toNat_ofNat']
    simp only [maxfile, bsize] at hbound
    omega
  have h1 : (1 : UInt32).toNat = 1 := rfl
  have hall : ∀ bn, bn < maxfile → Sound bufs.disk node.toDinode bn := by
    intro bn hbn
    by_cases ht : Touches off.toNat (writeCount off n).toNat bn
    · exact hw.stored.touched h.checked bn hbn (by rwa [hw.length])
    · refine (hw.stored.untouched bn hbn (by rwa [hw.length])).1 (h.sound bn hbn ?_)
      rintro rfl
      exact ht htouch
  have hbyte := hw.stored.byte x hx
  rw [hw.length, if_neg hout] at hbyte
  have hwhole : (content bufs.disk node.toDinode).length =
      ((s.after f bufs node).file f).size.toNat := by rw [length_content, hw.file]
  have hdata : data.length ≤ (content bufs.disk node.toDinode).length := by
    rw [hwhole, hsize]
    omega
  obtain ⟨r, out, hread, ⟨hrefused, _⟩ | ⟨_, hfail, hgood⟩⟩ :=
    hw.usable.read_after dev (UInt32.ofNat x) 1 hwhole
  · unfold Refused at hrefused
    rw [hx32, h1] at hrefused
    simp only [maxfile, bsize] at hbound
    omega
  · have hm : min (1 : UInt32).toNat
        ((content bufs.disk node.toDinode).length - (UInt32.ofNat x).toNat) = 1 := by
      rw [h1, hx32]
      omega
    rw [hm, hx32] at hfail hgood
    obtain ⟨hret, hbytes⟩ := hgood fun hr => hfail.mp hr fun _ y hy => by
      have hy' := mem_pieces hy
      rw [hw.file]
      refine hall _ ?_
      simp only [bsize] at hy' hx ⊢
      omega
    refine ⟨r, out, _, hread, hret, ?_⟩
    rw [hbytes, hw.file]
    simp only [List.range_one, List.map_cons, List.map_nil, Nat.add_zero]
    rw [← hbyte]
    rfl

end Hurt

/-! ## The damage shows -/

section Reload

variable {sb : Superblock} {f : Slot} {s : Kernel} {data : List UInt8} {x : Nat} {v : UInt8}

/-- A data block of the file is read again, with other bytes. -/
theorem Usable.reload (h : Usable sb f s) (hblock : s.sectorOf f x ≠ 0) (d : Sector) :
    Usable sb f (s.reload (s.sectorOf f x) d) ∧ (s.reload (s.sectorOf f x) d).file f = s.file f ∧
      ∀ q, (s.file f).word (s.reload (s.sectorOf f x) d).bufs.disk q = (s.file f).word s.bufs.disk q := by
  have hplace := blockPlace_ne_indirect (x / bsize)
  obtain ⟨hheld, hword⟩ := h.holding.write_block hplace hblock d
  have hmeta := (h.holding.inside hblock).1
  have hnode : ∀ i, i < sb.ninodes.toNat →
      dnode (s.reload (s.sectorOf f x) d).bufs.disk i = dnode s.bufs.disk i := by
    intro i hi
    refine Holding.dnode_congr (fun b hb => ?_) hi
    have hb' := hb
    unfold Superblock.InodeBlock at hb'
    have hlt := sb.bitmapStart_lt_metaBlocks
    refine Function.update_of_ne ?_ _ _
    rintro rfl
    unfold Kernel.sectorOf at hb'
    omega
  have hfile : (s.reload (s.sectorOf f x) d).file f = s.file f := by
    have hcache : (s.reload (s.sectorOf f x) d).icache = s.icache := rfl
    unfold Kernel.file
    rw [hcache, hnode _ (h.accounted.number f h.held)]
  have haddr : ∀ q, (s.file f).addr (s.reload (s.sectorOf f x) d).bufs.disk q =
      (s.file f).addr s.bufs.disk q := fun q => Dinode.addr_congr (hword q)
  refine ⟨⟨⟨⟨hheld.small, ?_⟩, h.accounted.idle, h.accounted.number, ?_, h.accounted.unique⟩, h.held,
    h.unlocked, ?_, ?_, ?_⟩, hfile, hword⟩
  · have hledger := hheld.ledger
    rw [nodesWith_self (hnode _ (h.accounted.number f h.held))] at hledger
    exact hledger
  · intro i hi hv
    obtain ⟨hsync, htype⟩ := h.accounted.synced i hi hv
    refine ⟨hsync.trans ?_, htype⟩
    exact (hnode _ (h.accounted.number i hi)).symm
  · rw [hfile]
    exact h.type
  · rw [hfile]
    exact h.bound
  · intro bn hbn
    rw [hfile] at hbn ⊢
    rw [haddr]
    exact h.full bn hbn

theorem Usable.byteAt_reload (h : Usable sb f s) (hblock : s.sectorOf f x ≠ 0) (d : Sector) :
    byteAt (s.reload (s.sectorOf f x) d).bufs.disk ((s.reload (s.sectorOf f x) d).file f).toDinode x =
      d (x % bsize) := by
  obtain ⟨_, hfile, hword⟩ := h.reload hblock d
  have haddr : (s.file f).addr (s.reload (s.sectorOf f x) d).bufs.disk (blockPlace (x / bsize)) =
      s.sectorOf f x := Dinode.addr_congr (hword _)
  have hself : (s.reload (s.sectorOf f x) d).bufs.disk (s.sectorOf f x) = d := Function.update_self ..
  rw [byteAt, hfile, haddr, if_neg hblock, hself]

theorem Usable.room_reload (h : Usable sb f s) (hblock : s.sectorOf f x ≠ 0) (d : Sector)
    (hroom : Room sb s.bufs.disk (s.file f)) :
    Room sb (s.reload (s.sectorOf f x) d).bufs.disk ((s.reload (s.sectorOf f x) d).file f) := by
  obtain ⟨_, hfile, hword⟩ := h.reload hblock d
  have hmeta := (h.holding.inside hblock).1
  have hfree : freeBlocks sb (s.reload (s.sectorOf f x) d).bufs.disk = freeBlocks sb s.bufs.disk := by
    refine freeBlocks_congr fun b hb => Function.update_of_ne ?_ _ _
    rintro rfl
    have hlt := hb.2
    unfold Kernel.sectorOf at hlt
    omega
  have hmiss : missing (s.reload (s.sectorOf f x) d).bufs.disk (s.file f).toDinode =
      missing s.bufs.disk (s.file f).toDinode := by
    ext q
    simp only [missing, Finset.mem_filter, Dinode.addr_congr (hword q)]
  unfold Room
  rw [hfile, hfree, hmiss]
  exact hroom

/-- The byte that changed on the disk arrives in the kernel. -/
theorem Backs.hurt (h : Backs sb f data s) (ht : (s.file f).type = tChecked) (hx : x / bsize < maxfile)
    (hblock : s.sectorOf f x ≠ 0) (hv : v ≠ s.bufs.disk (s.sectorOf f x) (x % bsize)) :
    Hurt sb f data x (s.reload (s.sectorOf f x)
      (Function.update (s.bufs.disk (s.sectorOf f x)) (x % bsize) v)) := by
  generalize hd : Function.update (s.bufs.disk (s.sectorOf f x)) (x % bsize) v = d
  obtain ⟨husable, hfile, hword⟩ := h.usable.reload hblock d
  have haddr : ∀ q, (s.file f).addr (s.reload (s.sectorOf f x) d).bufs.disk q =
      (s.file f).addr s.bufs.disk q := fun q => Dinode.addr_congr (hword q)
  have hself : (s.reload (s.sectorOf f x) d).bufs.disk (s.sectorOf f x) = d := Function.update_self ..
  have hother : ∀ b, b ≠ s.sectorOf f x →
      (s.reload (s.sectorOf f x) d).bufs.disk b = s.bufs.disk b :=
    fun b hb => Function.update_of_ne hb _ _
  -- another block of the file is another sector
  have happart : ∀ bn, bn < maxfile → bn ≠ x / bsize → (s.file f).addr s.bufs.disk (blockPlace bn) ≠ 0 →
      (s.file f).addr s.bufs.disk (blockPlace bn) ≠ s.sectorOf f x := by
    intro bn hbn hne ha heq
    exact hne (blockPlace_inj hbn hx (h.usable.holding.once ha heq))
  refine ⟨husable, by rw [hfile]; exact ht, by rw [hfile]; exact h.length_eq, ?_, ?_, ?_, ?_⟩
  · rw [Kernel.sectorOf, hfile, haddr]
    exact hblock
  · intro y hy hne
    have hy' : y < (s.file f).size.toNat := by rwa [← h.length_eq]
    have hfull := h.full (y / bsize) (by simp only [bsize]; omega)
    have hbound := h.bound
    have hbn : y / bsize < maxfile := by
      simp only [maxfile, bsize] at hbound ⊢
      omega
    have hold : byteAt s.bufs.disk (s.file f).toDinode y = data[y] := by
      have hcontent := h.content
      simp only [← hcontent, getElem_content]
    rw [hfile, ← hold, byteAt, byteAt, haddr, if_neg hfull, if_neg hfull]
    by_cases hyx : y / bsize = x / bsize
    · have hmod : y % bsize ≠ x % bsize := by
        simp only [bsize] at hyx ⊢
        omega
      have hsec : (s.file f).addr s.bufs.disk (blockPlace (y / bsize)) = s.sectorOf f x := by
        rw [hyx, Kernel.sectorOf]
      rw [hsec, hself, ← hd, Function.update_of_ne hmod]
    · rw [hother _ (happart _ hbn hyx hfull)]
  · intro bn hbn hne ha
    rw [hfile, haddr] at ha ⊢
    rw [hword, hother _ (happart bn hbn hne ha)]
    exact h.sound ht bn hbn ha
  · intro hs
    have hold := h.sound ht _ hx hblock
    have hnew := hs (by rw [hfile, haddr]; exact hblock)
    rw [hfile, haddr, hword, ← Kernel.sectorOf, hself, ← hd] at hnew
    exact checkSum_update_ne (Nat.mod_lt _ (by decide)) hv (hnew.symm.trans hold)

end Reload

/-! ## Runs -/

namespace Backs

variable {sb : Superblock} {dev : Devsw} {f : Slot} {s t : Kernel} {data : List UInt8} {c : FileCall}
variable {o : Int32 × List UInt8}

/-- A call that returned did what it does to an array. -/
theorem call (h : Backs sb f data s) (hc : c.Proper sb f s) (hrun : c.run dev f s = .ok (o, t)) :
    Backs sb f (c.onArray data).2 t ∧ (t.file f).type = (s.file f).type := by
  have hbyte : ∀ y (hy : y < data.length), byteAt s.bufs.disk (s.file f).toDinode y = data[y] := by
    intro y hy
    have hcontent := h.content
    simp only [← hcontent, getElem_content]
  rcases h.usable.call_cases hc hrun with
    ⟨_, husable, hfile, hsame, harray⟩ | ⟨src, off, n, node, bufs, rfl, rfl, _, href, hw⟩
  · rw [harray data h.length_eq, hfile]
    refine ⟨husable.backs ?_ ?_, rfl⟩
    · rw [hfile, ← h.content]
      exact List.map_congr_left fun y _ => hsame.byteAt_eq y
    · rw [hfile]
      exact fun ht bn hbn => hsame.sound (h.sound ht bn hbn)
  · have hnot := href data h.length_eq
    rw [FileCall.onArray, arrayWrite, if_neg hnot, ← hw.count, hw.file]
    exact ⟨hw.backs h.length_eq hnot (fun y hy _ => hbyte y hy) fun ht bn hbn _ => h.sound ht bn hbn,
      hw.written.type⟩

end Backs

/-- The disk holds what the kernel has, and the file is right. -/
structure Whole (sb : Superblock) (f : Slot) (data : List UInt8) (m : Storage) : Prop where
  backs : Backs sb f data m.kernel
  checked : (m.kernel.file f).type = tChecked
  platter : m.platter = m.kernel.bufs.disk

/-- Byte `x` is wrong on the disk, and the kernel still has the right one. -/
structure Hidden (sb : Superblock) (f : Slot) (data : List UInt8) (x : Nat) (m : Storage) : Prop where
  backs : Backs sb f data m.kernel
  checked : (m.kernel.file f).type = tChecked
  block : m.kernel.sectorOf f x ≠ 0
  platter : ∃ v, v ≠ m.kernel.bufs.disk (m.kernel.sectorOf f x) (x % bsize) ∧
    m.platter = Function.update m.kernel.bufs.disk (m.kernel.sectorOf f x)
      (Function.update (m.kernel.bufs.disk (m.kernel.sectorOf f x)) (x % bsize) v)

/-- Byte `x` is wrong on the disk and in the kernel. -/
structure Exposed (sb : Superblock) (f : Slot) (data : List UInt8) (x : Nat) (m : Storage) : Prop where
  hurt : Hurt sb f data x m.kernel
  platter : m.platter = m.kernel.bufs.disk

section Steps

variable {sb : Superblock} {dev : Devsw} {f : Slot} {m m' : Storage} {data : List UInt8} {x b : Nat}
variable {c : FileCall} {ws : Nat → Bool} {e : Event} {o : Int32 × List UInt8}

theorem call_eq_ok (h : (Event.call c ws).run dev f m = .ok (o, m')) :
    ∃ k, c.run dev f m.kernel = .ok (o, k) ∧
      m' = ⟨k, fun b => if ws b then k.bufs.disk b else m.platter b⟩ := by
  unfold Event.run at h
  simp only at h
  split at h
  · rename_i hrun
    cases h
    exact ⟨_, hrun, rfl⟩
  · cases h

theorem Storage.recycle_of_eq (h : m.platter b = m.kernel.bufs.disk b) : m.recycle b = m := by
  unfold Storage.recycle Kernel.reload
  rw [h, Function.update_eq_self]

/-- After a call the disk is what the kernel has, but for a sector that the call did not write. -/
theorem platter_call {k : Kernel} (hframe : ∀ b, ¬ ws b → k.bufs.disk b = m.kernel.bufs.disk b)
    (h : ws b ∨ m.platter b = m.kernel.bufs.disk b) :
    (if ws b then k.bufs.disk b else m.platter b) = k.bufs.disk b := by
  split
  · rfl
  · rename_i hb
    rw [h.resolve_left hb, hframe b hb]

/-- A write that does not hand the sector of byte `x` to `bwrite` stores nothing in its block. -/
theorem not_touches (hc : (Event.call c ws).Allowed sb dev f m) (hblock : m.kernel.sectorOf f x ≠ 0)
    (hb : ¬ ws (m.kernel.sectorOf f x)) : ∀ r ∈ c.range f m.kernel, ¬ Touches r.1 r.2 (x / bsize) := by
  rintro r hr ⟨y, hlo, hhi, hyx⟩
  have hsame : m.kernel.sectorOf f y = m.kernel.sectorOf f x := by
    rw [Kernel.sectorOf, hyx, Kernel.sectorOf]
  refine hb ?_
  rw [← hsame]
  exact hc.2.2 r hr y ⟨hlo, hhi⟩ (by rwa [hsame])

theorem Whole.step (h : Whole sb f data m) (he : e.Allowed sb dev f m)
    (hrun : e.run dev f m = .ok (o, m')) : Whole sb f (e.onArray data) m' := by
  cases e with
  | recycle b =>
      cases hrun
      rw [Storage.recycle_of_eq (congrFun h.platter b)]
      exact h
  | call c ws =>
      obtain ⟨k, hk, rfl⟩ := call_eq_ok hrun
      obtain ⟨hb, htype⟩ := h.backs.call he.1 hk
      exact ⟨hb, htype.trans h.checked, funext fun b =>
        platter_call (he.2.1 _ _ hk) (.inr (congrFun h.platter b))⟩

/-- The wrong byte is overwritten on the disk, or it stays there. -/
theorem Hidden.call (h : Hidden sb f data x m) (hx : x / bsize < maxfile)
    (he : (Event.call c ws).Allowed sb dev f m) (hrun : (Event.call c ws).run dev f m = .ok (o, m')) :
    (ws (m.kernel.sectorOf f x) ∧ Whole sb f (c.onArray data).2 m') ∨
      (m'.kernel.sectorOf f x = m.kernel.sectorOf f x ∧ Hidden sb f (c.onArray data).2 x m') := by
  obtain ⟨k, hk, rfl⟩ := call_eq_ok hrun
  obtain ⟨hb, htype⟩ := h.backs.call he.1 hk
  obtain ⟨v, hv, hplatter⟩ := h.platter
  have hother : ∀ b, b ≠ m.kernel.sectorOf f x → m.platter b = m.kernel.bufs.disk b := by
    intro b hne
    rw [hplatter, Function.update_of_ne hne]
  by_cases hmem : ws (m.kernel.sectorOf f x)
  · refine .inl ⟨hmem, hb, htype.trans h.checked, funext fun b => ?_⟩
    refine platter_call (he.2.1 _ _ hk) ?_
    by_cases hbx : b = m.kernel.sectorOf f x
    · exact .inl (hbx ▸ hmem)
    · exact .inr (hother b hbx)
  · obtain ⟨_, hword, hblock⟩ := h.backs.usable.block_kept he.1 hk hx h.block
      (not_touches he h.block hmem)
    have hsector : k.sectorOf f x = m.kernel.sectorOf f x := by
      rw [Kernel.sectorOf, Dinode.addr, htype, hword, ← Dinode.addr, Kernel.sectorOf]
    have hbytes : k.bufs.disk (m.kernel.sectorOf f x) =
        m.kernel.bufs.disk (m.kernel.sectorOf f x) := hblock
    refine .inr ⟨hsector, hb, htype.trans h.checked, by rw [hsector]; exact h.block, v, ?_, ?_⟩
    · simp only
      rw [hsector, hbytes]
      exact hv
    · funext b
      simp only
      rw [hsector, hbytes]
      by_cases hbx : b = m.kernel.sectorOf f x
      · rw [hbx, if_neg hmem, hplatter, Function.update_self, Function.update_self]
      · rw [Function.update_of_ne hbx]
        exact platter_call (he.2.1 _ _ hk) (.inr (hother b hbx))

/-- The wrong byte shows as soon as the buffer of its sector is gone. -/
theorem Hidden.recycle (h : Hidden sb f data x m) (hx : x / bsize < maxfile) (b : Nat) :
    (b = m.kernel.sectorOf f x ∧ Exposed sb f data x (m.recycle b)) ∨
      (b ≠ m.kernel.sectorOf f x ∧ m.recycle b = m) := by
  obtain ⟨v, hv, hplatter⟩ := h.platter
  by_cases hb : b = m.kernel.sectorOf f x
  · subst hb
    have hnew : m.platter (m.kernel.sectorOf f x) =
        Function.update (m.kernel.bufs.disk (m.kernel.sectorOf f x)) (x % bsize) v := by
      rw [hplatter, Function.update_self]
    refine .inl ⟨rfl, ?_, ?_⟩
    · unfold Storage.recycle
      rw [hnew]
      exact h.backs.hurt h.checked hx h.block hv
    · show m.platter = Function.update m.kernel.bufs.disk _ _
      rw [hnew, hplatter]
  · exact .inr ⟨hb, Storage.recycle_of_eq (by rw [hplatter, Function.update_of_ne hb])⟩

theorem Exposed.recycle (h : Exposed sb f data x m) (b : Nat) : m.recycle b = m :=
  Storage.recycle_of_eq (congrFun h.platter b)

/-- A call that stores nothing in the block of the wrong byte. -/
theorem Exposed.kept (h : Exposed sb f data x m) (hx : x / bsize < maxfile)
    (he : (Event.call c ws).Allowed sb dev f m) (hrun : (Event.call c ws).run dev f m = .ok (o, m'))
    (hno : ∀ r ∈ c.range f m.kernel, ¬ Touches r.1 r.2 (x / bsize)) :
    m'.kernel.sectorOf f x = m.kernel.sectorOf f x ∧ Exposed sb f (c.onArray data).2 x m' := by
  obtain ⟨k, hk, rfl⟩ := call_eq_ok hrun
  obtain ⟨htype, hword, _⟩ := h.hurt.usable.block_kept he.1 hk hx h.hurt.block hno
  refine ⟨?_, h.hurt.kept hx he.1 hk hno, funext fun b => ?_⟩
  · simp only
    rw [Kernel.sectorOf, Dinode.addr, htype, hword, ← Dinode.addr, Kernel.sectorOf]
  · exact platter_call (he.2.1 _ _ hk) (.inr (congrFun h.platter b))

/-- A write into the block that replaces the wrong byte or leaves it past the end. -/
theorem Exposed.healed (h : Exposed sb f data x m) (he : (Event.call c ws).Allowed sb dev f m)
    (hrun : (Event.call c ws).run dev f m = .ok (o, m')) {r : Nat × Nat} (hr : r ∈ c.range f m.kernel)
    (htouch : Touches r.1 r.2 (x / bsize))
    (hcare : r.1 ≤ x ∧ x < r.1 + r.2 ∨ data.length ≤ x ∧ r.1 + r.2 ≤ x) :
    Whole sb f (c.onArray data).2 m' := by
  obtain ⟨k, hk, rfl⟩ := call_eq_ok hrun
  obtain ⟨hb, htype⟩ := h.hurt.healed he.1 hk hr htouch hcare
  exact ⟨hb, htype, funext fun b => platter_call (he.2.1 _ _ hk) (.inr (congrFun h.platter b))⟩

end Steps

/-! ## Runs after the damage -/

/-- Nothing is left of the damage, or it waits on the disk, or the checksum tells. -/
def Fate (sb : Superblock) (f : Slot) (data : List UInt8) (x : Nat) (m : Storage) : Prop :=
  Whole sb f data m ∨ Hidden sb f data x m ∨ Exposed sb f data x m

section Fates

variable {sb : Superblock} {dev : Devsw} {f : Slot} {m m' w : Storage} {data : List UInt8} {x b : Nat}
variable {e : Event} {o : Int32 × List UInt8} {es : List Event} {os : List (Int32 × List UInt8)}

theorem Fate.step (h : Fate sb f data x m) (hx : x / bsize < maxfile) (he : e.Allowed sb dev f m)
    (hcare : e.Careful f x m) (hrun : e.run dev f m = .ok (o, m')) : Fate sb f (e.onArray data) x m' := by
  rcases h with h | h | h
  · exact .inl (h.step he hrun)
  · cases e with
    | recycle b =>
        cases hrun
        rcases h.recycle hx b with ⟨_, hexposed⟩ | ⟨_, hsame⟩
        · exact .inr (.inr hexposed)
        · rw [hsame]
          exact .inr (.inl h)
    | call c ws =>
        rcases h.call hx he hrun with ⟨_, hwhole⟩ | ⟨_, hhidden⟩
        · exact .inl hwhole
        · exact .inr (.inl hhidden)
  · cases e with
    | recycle b =>
        cases hrun
        rw [h.recycle b]
        exact .inr (.inr h)
    | call c ws =>
        by_cases htouch : ∃ r ∈ c.range f m.kernel, Touches r.1 r.2 (x / bsize)
        · obtain ⟨r, hr, ht⟩ := htouch
          have hcare' := hcare r hr ht h.hurt.broken
          rw [← h.hurt.length] at hcare'
          exact .inl (h.healed he hrun hr ht hcare')
        · have hno : ∀ r ∈ c.range f m.kernel, ¬ Touches r.1 r.2 (x / bsize) :=
            fun r hr ht => htouch ⟨r, hr, ht⟩
          exact .inr (.inr (h.kept hx he hrun hno).2)

theorem Fate.chain (hx : x / bsize < maxfile)
    (hrun : Chain (Event.run dev f) (fun m e => e.Allowed sb dev f m ∧ e.Careful f x m) m es os w)
    (h : Fate sb f data x m) : Fate sb f (es.foldl Event.onArray data) x w := by
  induction hrun generalizing data with
  | nil m => exact h
  | cons hok hrun _ ih => exact ih (h.step hx hok.1 hok.2 hrun)

/-- A read returns the right bytes or fails. -/
theorem Fate.read (h : Fate sb f data x m) (hx : x / bsize < maxfile) (off n : UInt32) :
    ∃ r out t, (FileCall.read off n).run dev f m.kernel = .ok ((r, out), t) ∧
      (r.toInt ≠ -1 → (r.toInt, out) = arrayRead data off n) := by
  rcases h with h | h | h
  · obtain ⟨r, out, t, hrun, hret, _⟩ := h.backs.read dev off n
    exact ⟨r, out, t, hrun, fun _ => hret⟩
  · obtain ⟨r, out, t, hrun, hret, _⟩ := h.backs.read dev off n
    exact ⟨r, out, t, hrun, fun _ => hret⟩
  · obtain ⟨r, out, t, hrun, hret, _⟩ := h.hurt.read hx dev off n
    exact ⟨r, out, t, hrun, hret⟩

theorem Whole.chain (hrun : Chain (Event.run dev f) (Event.Allowed sb dev f) m es os w)
    (h : Whole sb f data m) : Whole sb f (es.foldl Event.onArray data) w := by
  induction hrun generalizing data with
  | nil m => exact h
  | cons hok hrun _ ih => exact ih (h.step hok hrun)

/-- The damage stays on the disk while nothing is written to its sector. -/
def Lurking (sb : Superblock) (f : Slot) (data : List UInt8) (x b : Nat) (m : Storage) : Prop :=
  m.kernel.sectorOf f x = b ∧ (Hidden sb f data x m ∨ Exposed sb f data x m)

theorem Lurking.step (h : Lurking sb f data x b m) (hx : x / bsize < maxfile)
    (he : e.Allowed sb dev f m) (hb : ¬ e.writes b) (hrun : e.run dev f m = .ok (o, m')) :
    Lurking sb f (e.onArray data) x b m' := by
  obtain ⟨rfl, h | h⟩ := h
  · cases e with
    | recycle b =>
        cases hrun
        rcases h.recycle hx b with ⟨rfl, hexposed⟩ | ⟨_, hsame⟩
        · refine ⟨?_, .inr hexposed⟩
          obtain ⟨_, hfile, hword⟩ := h.backs.usable.reload h.block (m.platter (m.kernel.sectorOf f x))
          show (m.kernel.reload _ _).sectorOf f x = _
          rw [Kernel.sectorOf, hfile, Dinode.addr_congr (hword _), ← Kernel.sectorOf]
        · rw [hsame]
          exact ⟨rfl, .inl h⟩
    | call c ws =>
        rcases h.call hx he hrun with ⟨hmem, _⟩ | ⟨hsector, hhidden⟩
        · exact absurd hmem hb
        · exact ⟨hsector, .inl hhidden⟩
  · cases e with
    | recycle b =>
        cases hrun
        rw [h.recycle b]
        exact ⟨rfl, .inr h⟩
    | call c ws =>
        obtain ⟨hsector, hexposed⟩ := h.kept hx he hrun (not_touches he h.hurt.block hb)
        exact ⟨hsector, .inr hexposed⟩

theorem Lurking.chain (hx : x / bsize < maxfile)
    (hrun : Chain (Event.run dev f) (fun m e => e.Allowed sb dev f m ∧ ¬ e.writes b) m es os w)
    (h : Lurking sb f data x b m) : Lurking sb f (es.foldl Event.onArray data) x b w := by
  induction hrun generalizing data with
  | nil m => exact h
  | cons hok hrun _ ih => exact ih (h.step hx hok.1 hok.2 hrun)

theorem Lurking.recycle (h : Lurking sb f data x b m) (hx : x / bsize < maxfile) :
    Exposed sb f data x (m.recycle b) := by
  obtain ⟨rfl, h | h⟩ := h
  · rcases h.recycle hx (m.kernel.sectorOf f x) with ⟨_, hexposed⟩ | ⟨hne, _⟩
    · exact hexposed
    · exact absurd rfl hne
  · rw [h.recycle]
    exact h

/-- The checksum tells, or the byte lies past the end of the file. -/
def Told (sb : Superblock) (f : Slot) (data : List UInt8) (x : Nat) (m : Storage) : Prop :=
  Exposed sb f data x m ∨ Whole sb f data m ∧ data.length ≤ x

/-- The array does not grow over a byte that no write replaces. -/
theorem length_onArray (hdata : data.length = (m.kernel.file f).size.toNat)
    {c : FileCall} (hspare : ∀ r ∈ c.range f m.kernel, ¬ (r.1 ≤ x ∧ x < r.1 + r.2))
    (hend : data.length ≤ x) : (c.onArray data).2.length ≤ x := by
  cases c with
  | read off n => exact hend
  | other c => exact hend
  | write src off n =>
      rw [FileCall.onArray, arrayWrite]
      by_cases href : Refused data off n
      · rw [if_pos href]
        exact hend
      · have hrange : (FileCall.write src off n).range f m.kernel =
            some (off.toNat, min n.toNat (maxfile * bsize - off.toNat)) := by
          refine if_neg ?_
          unfold Refused at href ⊢
          rwa [length_content, ← hdata]
        have hout := hspare _ hrange
        unfold Refused at href
        rw [if_neg (by unfold Refused; exact href), length_overwrite _ _ (by omega), List.length_take]
        simp only at hout
        omega

theorem Told.step (h : Told sb f data x m) (hx : x / bsize < maxfile) (he : e.Allowed sb dev f m)
    (hcare : e.Careful f x m) (hspare : e.Spares f x m) (hrun : e.run dev f m = .ok (o, m')) :
    Told sb f (e.onArray data) x m' := by
  rcases h with h | ⟨h, hend⟩
  · cases e with
    | recycle b =>
        cases hrun
        rw [h.recycle b]
        exact .inl h
    | call c ws =>
        by_cases htouch : ∃ r ∈ c.range f m.kernel, Touches r.1 r.2 (x / bsize)
        · obtain ⟨r, hr, ht⟩ := htouch
          have hcare' := hcare r hr ht h.hurt.broken
          rw [← h.hurt.length] at hcare'
          refine .inr ⟨h.healed he hrun hr ht hcare', ?_⟩
          exact length_onArray h.hurt.length hspare (hcare'.resolve_left (hspare r hr)).1
        · have hno : ∀ r ∈ c.range f m.kernel, ¬ Touches r.1 r.2 (x / bsize) :=
            fun r hr ht => htouch ⟨r, hr, ht⟩
          exact .inl (h.kept hx he hrun hno).2
  · refine .inr ⟨h.step he hrun, ?_⟩
    cases e with
    | recycle b => exact hend
    | call c ws => exact length_onArray h.backs.length_eq hspare hend

theorem Told.chain (hx : x / bsize < maxfile)
    (hrun : Chain (Event.run dev f)
      (fun m e => e.Allowed sb dev f m ∧ e.Careful f x m ∧ e.Spares f x m) m es os w)
    (h : Told sb f data x m) : Told sb f (es.foldl Event.onArray data) x w := by
  induction hrun generalizing data with
  | nil m => exact h
  | cons hok hrun _ ih => exact ih (h.step hx hok.1 hok.2.1 hok.2.2 hrun)

theorem Told.read (h : Told sb f data x m) (hx : x / bsize < maxfile) {off n : UInt32}
    (hlo : off.toNat ≤ x) (hhi : x < off.toNat + n.toNat) (hin : x < data.length) :
    ∃ r out t, (FileCall.read off n).run dev f m.kernel = .ok ((r, out), t) ∧ r.toInt = -1 := by
  rcases h with h | ⟨_, hend⟩
  · obtain ⟨r, out, t, hrun, _, hfail⟩ := h.hurt.read hx dev off n
    exact ⟨r, out, t, hrun, hfail ⟨hlo, hhi, hin⟩⟩
  · omega

end Fates

theorem FreshFile.whole {sb : Superblock} {f : Slot} {m : Storage} (h : FreshFile sb f m.kernel)
    (ht : (m.kernel.file f).type = tChecked) (hsame : m.platter = m.kernel.bufs.disk) :
    Whole sb f [] m := ⟨h.backs, ht, hsame⟩

theorem Whole.alter {sb : Superblock} {f : Slot} {m : Storage} {data : List UInt8} {x : Nat} {v : UInt8}
    (h : Whole sb f data m) (hblock : m.kernel.sectorOf f x ≠ 0)
    (hv : v ≠ m.platter (m.kernel.sectorOf f x) (x % bsize)) :
    Hidden sb f data x (m.alter (m.kernel.sectorOf f x) (x % bsize) v) := by
  rw [h.platter] at hv
  refine ⟨h.backs, h.checked, hblock, v, hv, ?_⟩
  show Function.update m.platter _ (Function.update (m.platter _) _ _) = _
  rw [h.platter]
  rfl

/-- A checked file was made and used, and byte `x` of its blocks is about to change to `v` on the disk. -/
structure Struck (sb : Superblock) (dev : Devsw) (f : Slot) (es : List Event) (x : Nat) (v : UInt8)
    (u : Storage) : Prop where
  history : ∃ m os, FreshFile sb f m.kernel ∧ (m.kernel.file f).type = tChecked ∧
    m.platter = m.kernel.bufs.disk ∧ Chain (Event.run dev f) (Event.Allowed sb dev f) m es os u
  number : x / bsize < maxfile
  block : u.kernel.sectorOf f x ≠ 0
  byte : v ≠ u.platter (u.kernel.sectorOf f x) (x % bsize)

/-- The disk after the change. -/
def Storage.strike (u : Storage) (f : Slot) (x : Nat) (v : UInt8) : Storage :=
  u.alter (u.kernel.sectorOf f x) (x % bsize) v

theorem Struck.hidden {sb : Superblock} {dev : Devsw} {f : Slot} {es : List Event} {x : Nat} {v : UInt8}
    {u : Storage} (h : Struck sb dev f es x v u) :
    Hidden sb f (es.foldl Event.onArray []) x (u.strike f x v) := by
  obtain ⟨m, os, hfresh, ht, hsame, hrun⟩ := h.history
  exact ((hfresh.whole ht hsame).chain hrun).alter h.block h.byte

/-- **Checked files.**  One byte of a data block of a checked file changes on the disk.  As long as no
write stores into the block while it does not fit its checksum, unless it replaces the byte, a read that
does not fail returns the bytes that were written last.  Once the kernel has read the sector from the disk
again, with no write to it before that, a read of the byte fails until a write replaces it. -/
theorem checked_reads {sb : Superblock} {dev : Devsw} {f : Slot} {u : Storage} {es : List Event} {x : Nat}
    {v : UInt8} (h : Struck sb dev f es x v u) :
    (∀ es' os' w, Chain (Event.run dev f) (fun m e => e.Allowed sb dev f m ∧ e.Careful f x m)
        (u.strike f x v) es' os' w →
      ∀ off n, ∃ r out t, (FileCall.read off n).run dev f w.kernel = .ok ((r, out), t) ∧
        (r.toInt ≠ -1 → (r.toInt, out) = arrayRead ((es ++ es').foldl Event.onArray []) off n)) ∧
    ∀ es₁ os₁ w₁ es₂ os₂ w,
      Chain (Event.run dev f) (fun m e => e.Allowed sb dev f m ∧ ¬ e.writes (u.kernel.sectorOf f x))
        (u.strike f x v) es₁ os₁ w₁ →
      Chain (Event.run dev f) (fun m e => e.Allowed sb dev f m ∧ e.Careful f x m ∧ e.Spares f x m)
        (w₁.recycle (u.kernel.sectorOf f x)) es₂ os₂ w →
      ∀ off n : UInt32, off.toNat ≤ x → x < off.toNat + n.toNat →
        x < ((es ++ es₁ ++ es₂).foldl Event.onArray []).length →
        ∃ r out t, (FileCall.read off n).run dev f w.kernel = .ok ((r, out), t) ∧ r.toInt = -1 := by
  have hx := h.number
  refine ⟨fun es' os' w hrun off n => ?_, fun es₁ os₁ w₁ es₂ os₂ w hrun₁ hrun₂ off n hlo hhi hin => ?_⟩
  · rw [List.foldl_append]
    exact (Fate.chain hx hrun (.inr (.inl h.hidden))).read hx off n
  · have hlurk := Lurking.chain hx hrun₁ ⟨rfl, .inl h.hidden⟩
    rw [← List.foldl_append] at hlurk
    have htold := Told.chain hx hrun₂ (.inl (hlurk.recycle hx))
    rw [← List.foldl_append] at htold
    exact htold.read hx hlo hhi hin

/-! ## A file of two bytes -/

section TwoBytes

variable {sb : Superblock} {dev : Devsw} {f : Slot} {m : Storage} {s k : Kernel} {data : List UInt8}
variable {c : FileCall} {o : Int32 × List UInt8} {x : Nat}

theorem call_ok (ws : Nat → Bool) (h : c.run dev f m.kernel = .ok (o, k)) : (Event.call c ws).run dev f m =
    .ok (o, ⟨k, fun b => if ws b then k.bufs.disk b else m.platter b⟩) := by
  unfold Event.run
  simp only
  rw [h]

theorem allowed_all (hc : c.Proper sb f m.kernel) : (Event.call c fun _ => true).Allowed sb dev f m :=
  ⟨hc, fun _ _ _ _ hb => absurd rfl hb, fun _ _ _ _ _ => rfl⟩

/-- A byte of the file is a byte of its sector. -/
theorem Backs.sector_byte (h : Backs sb f data s) (hx : x < data.length) :
    s.sectorOf f x ≠ 0 ∧ s.bufs.disk (s.sectorOf f x) (x % bsize) = data[x] := by
  have hsize := h.length_eq
  have hfull : s.sectorOf f x ≠ 0 := h.full (x / bsize) (by simp only [bsize]; omega)
  refine ⟨hfull, ?_⟩
  have hcontent := h.content
  simp only [← hcontent, getElem_content]
  exact (if_neg hfull).symm

/-- A checked file is made, and two bytes are written to it. -/
def made : Storage := ⟨blankFile, blankDisk⟩

theorem made_write : ∃ o u,
    (Event.call (.write [1, 2] 0 2) fun _ => true).run noDevices 0 made = .ok (o, u) ∧
    Whole ⟨8192, 8⟩ 0 [1, 2] u ∧ Room ⟨8192, 8⟩ u.kernel.bufs.disk (u.kernel.file 0) := by
  have hfresh := blankFile_fresh
  have husable := hfresh.backs.usable
  have hlen : ([] : List UInt8).length = (blankFile.file 0).size.toNat := hfresh.backs.length_eq
  have href : ¬ Refused ([] : List UInt8) 0 2 := by decide
  obtain ⟨r, node, bufs, hx⟩ :=
    husable.write_returns noDevices [1, 2] 0 2 rfl blankFile_room hlen href
  have hroom := husable.wrote_room hlen href blankFile_room hx
  obtain ⟨_, hw⟩ := husable.wrote rfl hlen href hx
  have hrun := call_ok (m := made) (fun _ => true) (husable.write_run hx)
  have hwhole : Whole ⟨8192, 8⟩ 0 [] made := hfresh.whole (by decide +kernel) rfl
  have hproper : (FileCall.write [1, 2] 0 2).Proper ⟨8192, 8⟩ 0 made.kernel := rfl
  refine ⟨_, _, hrun, hwhole.step (allowed_all hproper) hrun, ?_⟩
  have hfile := hw.file
  simp only
  rw [hfile]
  exact hroom

/-- The first of the two bytes is about to change. -/
theorem made_struck : ∃ u, Struck ⟨8192, 8⟩ noDevices 0 [.call (.write [1, 2] 0 2) fun _ => true] 0 7 u ∧
    Whole ⟨8192, 8⟩ 0 [1, 2] u ∧ Room ⟨8192, 8⟩ u.kernel.bufs.disk (u.kernel.file 0) := by
  obtain ⟨o, u, hrun, hwhole, hroom⟩ := made_write
  obtain ⟨hblock, hbyte⟩ := hwhole.backs.sector_byte (x := 0) (by decide)
  have hproper : (FileCall.write [1, 2] 0 2).Proper ⟨8192, 8⟩ 0 made.kernel := rfl
  refine ⟨u, ⟨⟨made, [o], blankFile_fresh, by decide +kernel, rfl, ?_⟩, by decide, hblock, ?_⟩, hwhole,
    hroom⟩
  · exact Chain.cons (allowed_all hproper) hrun (Chain.nil u)
  · rw [hwhole.platter, hbyte]
    decide

theorem checked_reads_two : ∃ u r out t, Whole ⟨8192, 8⟩ 0 [1, 2] u ∧
    (FileCall.read 0 2).run noDevices 0 ((u.strike 0 0 7).recycle (u.kernel.sectorOf 0 0)).kernel =
      .ok ((r, out), t) ∧ r.toInt = -1 := by
  obtain ⟨u, hstruck, hwhole, _⟩ := made_struck
  obtain ⟨r, out, t, hread, hfail⟩ := (checked_reads hstruck).2 [] [] _ [] [] _ (Chain.nil _) (Chain.nil _)
    0 2 (by decide) (by decide) (by decide)
  exact ⟨u, r, out, t, hwhole, hread, hfail⟩

/-- A write of the second byte hides that the first one is wrong; and a read finds the right bytes while
the kernel has them. -/
theorem not_checked_reads :
    (¬ ∀ (sb : Superblock) (dev : Devsw) (f : Slot) (u w : Storage) (es es' : List Event)
      (os' : List (Int32 × List UInt8)) (x : Nat) (v : UInt8), Struck sb dev f es x v u →
      Chain (Event.run dev f) (Event.Allowed sb dev f) (u.strike f x v) es' os' w →
      ∀ off n r out t, (FileCall.read off n).run dev f w.kernel = .ok ((r, out), t) → r.toInt ≠ -1 →
        (r.toInt, out) = arrayRead ((es ++ es').foldl Event.onArray []) off n) ∧
    ¬ ∀ (sb : Superblock) (dev : Devsw) (f : Slot) (u w : Storage) (es es' : List Event)
      (os' : List (Int32 × List UInt8)) (x : Nat) (v : UInt8), Struck sb dev f es x v u →
      Chain (Event.run dev f) (fun m e => e.Allowed sb dev f m ∧ e.Spares f x m)
        (u.strike f x v) es' os' w →
      ∀ off n : UInt32, off.toNat ≤ x → x < off.toNat + n.toNat →
        x < ((es ++ es').foldl Event.onArray []).length →
        ∀ r out t, (FileCall.read off n).run dev f w.kernel = .ok ((r, out), t) → r.toInt = -1 := by
  obtain ⟨u, hstruck, hwhole, hroom⟩ := made_struck
  refine ⟨fun hclaim => ?_, fun hclaim => ?_⟩
  · generalize hm : (u.strike 0 0 7).recycle (u.kernel.sectorOf 0 0) = m
    have hkernel : m.kernel = u.kernel.reload (u.kernel.sectorOf 0 0)
        ((u.strike 0 0 7).platter (u.kernel.sectorOf 0 0)) := by rw [← hm]; rfl
    have hexposed : Exposed ⟨8192, 8⟩ 0 [1, 2] 0 m := by
      rcases hstruck.hidden.recycle (by decide) (u.kernel.sectorOf 0 0) with ⟨_, h⟩ | ⟨hne, _⟩
      · rwa [hm] at h
      · exact absurd rfl hne
    have hhurt := hexposed.hurt
    have hlen := hhurt.length
    have href : ¬ Refused ([1, 2] : List UInt8) 1 1 := by decide
    have hroom' : Room ⟨8192, 8⟩ m.kernel.bufs.disk (m.kernel.file 0) := by
      rw [hkernel]
      exact hwhole.backs.usable.room_reload hstruck.block _ hroom
    obtain ⟨r, node, bufs, hx⟩ := hhurt.usable.write_returns noDevices [5] 1 1 rfl hroom' hlen href
    have hwrite := hhurt.usable.write_run hx
    have hproper : (FileCall.write [5] 1 1).Proper ⟨8192, 8⟩ 0 m.kernel := rfl
    have hrange : (1, 1) ∈ (FileCall.write [5] 1 1).range 0 m.kernel := by
      refine if_neg ?_
      unfold Refused at href ⊢
      rwa [length_content, ← hlen]
    obtain ⟨r', out, t, hread, hret, hout⟩ := hhurt.masked (by decide) hproper hwrite hrange
      ⟨1, by decide, by decide, by decide⟩ (by decide) (by decide)
    have hreload : (Event.recycle (u.kernel.sectorOf 0 0)).run noDevices 0 (u.strike 0 0 7) =
        .ok ((0, []), m) := by
      rw [← hm]
      rfl
    have hrun : Chain (Event.run noDevices 0) (Event.Allowed ⟨8192, 8⟩ noDevices 0) (u.strike 0 0 7)
        [.recycle (u.kernel.sectorOf 0 0), .call (.write [5] 1 1) fun _ => true] _ _ :=
      Chain.cons trivial hreload (Chain.cons (allowed_all hproper) (call_ok _ hwrite) (Chain.nil _))
    have hright := hclaim _ _ _ _ _ _ _ _ 0 7 hstruck hrun 0 1 r' out t hread (by rw [hret]; decide)
    have hseven : byteAt m.kernel.bufs.disk (m.kernel.file 0).toDinode 0 = 7 := by
      rw [hkernel, hwhole.backs.usable.byteAt_reload hstruck.block]
      simp only [Storage.strike, Storage.alter, Function.update_self]
    rw [hout, hseven] at hright
    have hsnd : [7] = (arrayRead ((FileCall.write [5] 1 1).onArray
        ((FileCall.write [1, 2] 0 2).onArray []).2).2 0 1).2 := congrArg Prod.snd hright
    exact absurd hsnd (by decide)
  · obtain ⟨r, out, t, hread, hret, _⟩ := hwhole.backs.read noDevices 0 1
    have hfail := hclaim _ _ _ _ _ _ [] _ 0 7 hstruck (Chain.nil _) 0 1 (by decide) (by decide)
      (by decide) r out t hread
    rw [hfail] at hret
    have hfst : -1 = (arrayRead [1, 2] 0 1).1 := congrArg Prod.fst hret
    exact absurd hfst (by decide)

end TwoBytes

end Xv6
end LfsXv6
