import LfsXv6.Xv6.Writes

/-!
# Contents — the bytes of a file

`byteAt` looks up a byte of a file through the places of its inode, and `Sound` compares a block with
the checksum stored for it.  A turn of `writei` replaces the bytes it is about and no others, neither of
this file nor of another one, and a block it leaves is sound.
-/

namespace LfsXv6
namespace Xv6

open Lib Prog

/-- Byte `o` of a file.  Where there is no block there are zeroes. -/
def byteAt (disk : Nat → Sector) (n : Dinode) (o : Nat) : UInt8 :=
  if n.addr disk (blockPlace (o / bsize)) = 0 then 0
  else disk (n.addr disk (blockPlace (o / bsize))) (o % bsize)

/-- The checksum stored for block `bn` is that of its bytes. -/
def Sound (disk : Nat → Sector) (n : Dinode) (bn : Nat) : Prop :=
  n.addr disk (blockPlace bn) ≠ 0 →
    checkByte (n.word disk (blockPlace bn)) = (disk (n.addr disk (blockPlace bn))).checkSum

/-! ## Blocks and checksums -/

section Sums

variable {d d' : Sector}

theorem checkSum_congr (h : ∀ k, k < bsize → d k = d' k) : d.checkSum = d'.checkSum := by
  unfold Sector.checkSum
  rw [h 0 (by decide)]
  refine List.foldl_ext _ _ _ ?_
  intro acc k hk
  have := List.mem_range.mp hk
  rw [h (k + 1) (by simp only [bsize] at this ⊢; omega)]

theorem checkSum_of_zero (h : ∀ k, k < bsize → d k = 0) : d.checkSum = 0 := by
  have hzero : Sector.checkSum (fun _ => 0) = 0 := by decide +kernel
  have hsame : d.checkSum = Sector.checkSum (fun _ => 0) := checkSum_congr h
  rw [hsame, hzero]

theorem checkByte_of_lt {x : UInt32} (h : x.toNat < 2 ^ 24) : checkByte x = 0 := by
  refine UInt8.toNat_inj.mp ?_
  rw [checkByte_toNat, Nat.div_eq_of_lt h]
  rfl

theorem blockPlace_inj {bn bn' : Nat} (hbn : bn < maxfile) (hbn' : bn' < maxfile)
    (h : blockPlace bn = blockPlace bn') : bn = bn' := by
  unfold blockPlace at h
  simp only [maxfile] at hbn hbn'
  split at h <;> split at h
  · exact congrArg Fin.val (Place.slot.inj h)
  · cases h
  · cases h
  · have := congrArg Fin.val (Place.entry.inj h)
    simp only [Fin.ofNat, ndirect] at this
    rename_i h1 h2
    simp only [ndirect] at h1 h2
    omega

end Sums

/-! ## What a turn does to the bytes -/

namespace Turn

variable {sb : Superblock} {disk disk' : Nat → Sector} {ip ip' : Inode} {bn o : Nat}
variable {chunk : List UInt8}

/-- A block of another place is the same block as before, with the same bytes. -/
theorem block_ne (h : Turn sb disk ip (blockPlace bn) o chunk disk' ip') {q : Place}
    (hq : q ≠ blockPlace bn) (hqi : q ≠ .indirect) (ha : ip.addr disk q ≠ 0) :
    disk' (ip.addr disk q) = disk (ip.addr disk q) := by
  have haddr := h.addr q ha
  have ha' : ip'.addr disk' q ≠ 0 := by rwa [haddr]
  rw [← haddr]
  refine h.kept _ ha' ?_ ?_ ?_
  · rintro ⟨_, hhi⟩
    have := (h.holding.inside ha').1
    omega
  · intro heq
    exact hqi (h.holding.once ha' (q := .indirect) heq.symm)
  · intro heq
    exact hq (h.holding.once ha' heq.symm)

theorem byteAt_ne (h : Turn sb disk ip (blockPlace bn) o chunk disk' ip') {x : Nat}
    (hq : blockPlace (x / bsize) ≠ blockPlace bn) :
    byteAt disk' ip'.toDinode x = byteAt disk ip.toDinode x := by
  have hqi := blockPlace_ne_indirect (x / bsize)
  unfold byteAt
  by_cases ha : ip.addr disk (blockPlace (x / bsize)) = 0
  · rw [if_pos ha]
    rcases h.fresh _ hq ha with hsame | ⟨hnew, _, hzero⟩
    · have hnone : ip'.addr disk' (blockPlace (x / bsize)) = 0 := by
        rw [Dinode.addr, hsame, h.same]
        exact ha
      rw [if_pos hnone]
    · rw [if_neg hnew]
      exact hzero hqi _ (Nat.mod_lt _ (by decide))
  · have haddr := h.addr _ ha
    rw [if_neg ha, if_neg (by rwa [haddr]), haddr, h.block_ne hq hqi ha]

theorem byteAt_eq (h : Turn sb disk ip (blockPlace bn) o chunk disk' ip') {x : Nat}
    (hx : x / bsize = bn) :
    byteAt disk' ip'.toDinode x =
      if o ≤ x % bsize ∧ x % bsize < o + chunk.length then chunk.getD (x % bsize - o) 0
      else byteAt disk ip.toDinode x := by
  obtain ⟨d, hd, hold⟩ := h.data
  unfold byteAt
  rw [hx, if_neg h.assigned, hd, Sector.store]
  split
  · rfl
  · rw [hold _ (Nat.mod_lt _ (by decide))]

theorem sound_ne (h : Turn sb disk ip (blockPlace bn) o chunk disk' ip') {bn' : Nat}
    (hq : blockPlace bn' ≠ blockPlace bn) (hs : Sound disk ip.toDinode bn') :
    Sound disk' ip'.toDinode bn' := by
  have hqi := blockPlace_ne_indirect bn'
  intro ha'
  by_cases ha : ip.addr disk (blockPlace bn') = 0
  · rcases h.fresh _ hq ha with hsame | ⟨_, hlow, hzero⟩
    · refine absurd ?_ ha'
      rw [Dinode.addr, hsame, h.same]
      exact ha
    · rw [checkByte_of_lt hlow, checkSum_of_zero (hzero hqi)]
  · rw [h.word _ hq ha, h.addr _ ha, h.block_ne hq hqi ha]
    exact hs ha

theorem sound_eq (h : Turn sb disk ip (blockPlace bn) o chunk disk' ip') (ht : ip.type = tChecked) :
    Sound disk' ip'.toDinode bn := fun _ => h.check ht

theorem type_eq (h : Turn sb disk ip (blockPlace bn) o chunk disk' ip') : ip'.type = ip.type := by
  rw [h.same]

theorem inum_eq (h : Turn sb disk ip (blockPlace bn) o chunk disk' ip') : ip'.inum = ip.inum := by
  rw [h.same]

theorem assigned_of (h : Turn sb disk ip (blockPlace bn) o chunk disk' ip') {q : Place}
    (hq : ip.addr disk q ≠ 0) : ip'.addr disk' q ≠ 0 := by
  rwa [h.addr q hq]

end Turn

/-! ## Files side by side -/

namespace SameFile

variable {disk disk' : Nat → Sector} {n : Dinode}

theorem byteAt_eq (h : SameFile disk disk' n) (x : Nat) : byteAt disk' n x = byteAt disk n x := by
  unfold byteAt
  rw [h.addr]
  split
  · rfl
  · rename_i hne
    rw [h.block _ hne]

theorem sound (h : SameFile disk disk' n) {bn : Nat} (hs : Sound disk n bn) : Sound disk' n bn := by
  intro ha
  rw [h.addr] at ha ⊢
  rw [h.word, h.block _ ha]
  exact hs ha

end SameFile

/-! ## The turns of a loop -/

section Pieces

variable {fuel off n : Nat}

theorem mem_pieces {r : Nat × Nat} (hr : r ∈ pieces fuel off n) :
    off ≤ r.1 ∧ r.1 + r.2 ≤ off + n ∧ r.1 % bsize + r.2 ≤ bsize ∧ 0 < r.2 := by
  induction fuel generalizing off n with
  | zero => cases hr
  | succ fuel ih =>
      unfold pieces at hr
      have hmod : off % bsize < bsize := Nat.mod_lt _ (by decide)
      split at hr
      · cases hr
      · rcases List.mem_cons.mp hr with rfl | hr
        · simp only
          omega
        · have := ih hr
          omega

theorem pieces_eq_nil (hfuel : n ≤ fuel) (h : pieces fuel off n = []) : n = 0 := by
  by_contra hn
  cases fuel with
  | zero => omega
  | succ fuel =>
      rw [pieces, if_neg hn] at h
      cases h

/-- The turns go over the bytes in order. -/
theorem flatMap_pieces (g : Nat → UInt8) (hfuel : n ≤ fuel) :
    ((pieces fuel off n).flatMap fun r => (List.range r.2).map fun k => g (r.1 + k)) =
      (List.range n).map fun k => g (off + k) := by
  induction fuel generalizing off n with
  | zero =>
      have hn : n = 0 := by omega
      subst hn
      rfl
  | succ fuel ih =>
      unfold pieces
      by_cases hn : n = 0
      · rw [if_pos hn, hn]
        rfl
      have hmod : off % bsize < bsize := Nat.mod_lt _ (by decide)
      generalize hm : min n (bsize - off % bsize) = m
      have hsplit : n = m + (n - m) := by omega
      rw [if_neg hn]
      simp only [List.flatMap_cons]
      rw [ih (by omega)]
      conv_rhs => rw [hsplit, List.range_add, List.map_append, List.map_map]
      congr 1
      refine List.map_congr_left ?_
      intro k _
      simp only [Function.comp, Nat.add_assoc]

end Pieces

/-! ## `readi` -/

section Readi

variable {s : Bufs} {ip : Inode}

theorem storedCheck_ok (hbusy : s.busy = []) {bn : Nat} (hbn : bn < maxfile) (ht : ip.type = tChecked)
    (ha : ip.addr s.disk (blockPlace bn) ≠ 0) :
    storedCheck ip bn s = .ok (checkByte (ip.word s.disk (blockPlace bn)), s) := by
  unfold storedCheck
  by_cases hd : bn < ndirect
  · rw [dif_pos hd, blockPlace, dif_pos hd]
    rfl
  rw [dif_neg hd]
  have hj : ((Fin.ofNat 128 (bn - ndirect) : Fin 128) : Nat) = bn - ndirect := by
    simp only [maxfile, ndirect] at hbn hd ⊢
    simp only [Fin.ofNat]
    omega
  have hind : ip.indirect ≠ 0 := by
    intro h0
    simp [blockPlace, dif_neg hd, Dinode.addr, Dinode.word, h0] at ha
  have hmask : (maskAddr (ip.addrs 12)).toNat = ip.indirect := by
    rw [Dinode.indirect, addrOf, if_pos ht]
  have hnot : ip.indirect ∉ s.busy := by
    rw [hbusy]
    exact List.not_mem_nil
  simp only [hmask]
  rw [bread_brelse (f := fun indir => checkByte (indir.word (bn - ndirect))) hnot
    (by rw [hbusy]; decide)]
  simp only [blockPlace, dif_neg hd, Dinode.word, if_neg hind, hj]

/-- The loop of `readi` over blocks that are there: it stops at the first checksum that is wrong. -/
theorem readiLoop_ok (hbusy : s.busy = []) {ps : List (Nat × Nat)}
    (hps : ∀ r ∈ ps, r.1 / bsize < maxfile ∧ ip.addr s.disk (blockPlace (r.1 / bsize)) ≠ 0 ∧
      r.1 % bsize + r.2 ≤ bsize) :
    ∃ good out, readiLoop ip ps s = .ok (((good, out), ip), s) ∧
      (good = true ↔ (ip.type = tChecked → ∀ r ∈ ps, Sound s.disk ip.toDinode (r.1 / bsize))) ∧
        (good = true → out = ps.flatMap fun r =>
          (List.range r.2).map fun k => byteAt s.disk ip.toDinode (r.1 + k)) := by
  induction ps with
  | nil =>
      refine ⟨true, [], rfl, ?_, fun _ => rfl⟩
      simp
  | cons r ps ih =>
      obtain ⟨off, m⟩ := r
      obtain ⟨hbn, ha, hm⟩ := hps _ List.mem_cons_self
      obtain ⟨good, out, hrest, hgood, hout⟩ := ih fun r hr => hps r (List.mem_cons_of_mem _ hr)
      simp only at hbn ha hm
      have hnot : ∀ b, b ∉ s.busy := by
        intro b
        rw [hbusy]
        exact List.not_mem_nil
      have hlen : s.busy.length < nbuf := by rw [hbusy]; decide
      have haddr : (addrOf ip.type (ip.word s.disk (blockPlace (off / bsize)))).toNat =
          ip.addr s.disk (blockPlace (off / bsize)) := rfl
      have hbytes : (s.disk (ip.addr s.disk (blockPlace (off / bsize)))).slice (off % bsize) m =
          (List.range m).map fun k => byteAt s.disk ip.toDinode (off + k) := by
        refine List.map_congr_left ?_
        intro k hk
        have := List.mem_range.mp hk
        have hdiv : (off + k) / bsize = off / bsize := by
          simp only [bsize] at hm ⊢
          omega
        have hmod : (off + k) % bsize = off % bsize + k := by
          simp only [bsize] at hm ⊢
          omega
        rw [byteAt, hdiv, if_neg ha, hmod]
      unfold readiLoop
      rw [bind_of_ok (bmap_assigned hbusy hbn ha)]
      simp only [haddr]
      rw [bind_of_ok (bread_ok (hnot _) hlen), bind_of_ok (brelse_ok List.mem_cons_self),
        List.erase_cons_head]
      by_cases ht : ip.type = tChecked
      · rw [if_pos ht, bind_of_ok (bmap_assigned hbusy hbn ha)]
        simp only [haddr]
        rw [bind_of_ok (bread_ok (hnot _) hlen), bind_of_ok (brelse_ok List.mem_cons_self),
          List.erase_cons_head, bind_of_ok (storedCheck_ok hbusy hbn ht ha)]
        by_cases hsum : checkByte (ip.word s.disk (blockPlace (off / bsize))) =
            (s.disk (ip.addr s.disk (blockPlace (off / bsize)))).checkSum
        · rw [if_neg (not_not.mpr hsum), bind_of_ok hrest]
          refine ⟨good, _, rfl, ?_, ?_⟩
          · rw [hgood]
            simp only [List.forall_mem_cons, ht, forall_const]
            exact ⟨fun h => ⟨fun _ => hsum, h⟩, fun h => h.2⟩
          · intro hg
            rw [List.flatMap_cons, hout hg, hbytes]
        · rw [if_pos hsum]
          refine ⟨false, _, rfl, ?_, fun h => by cases h⟩
          refine iff_of_false Bool.false_ne_true ?_
          intro h
          have hs : Sound s.disk ip.toDinode (off / bsize) := h ht (off, m) List.mem_cons_self
          exact hsum (hs ha)
      · rw [if_neg ht, bind_of_ok hrest]
        refine ⟨good, _, rfl, ?_, ?_⟩
        · rw [hgood]
          simp only [ht, false_implies]
        · intro hg
          rw [List.flatMap_cons, hout hg, hbytes]

end Readi

/-! ## `writei` -/

/-- Block `bn` has one of the `len` bytes from `lo` on. -/
def Touches (lo len bn : Nat) : Prop := ∃ o, lo ≤ o ∧ o < lo + len ∧ o / bsize = bn

/-- The bytes from `lo` on were replaced.  Blocks with such a byte are there and sound afterwards, the
other ones are as they were. -/
structure Stored (disk : Nat → Sector) (ip : Inode) (lo : Nat) (bytes : List UInt8)
    (disk' : Nat → Sector) (ip' : Inode) : Prop where
  type : ip'.type = ip.type
  byte : ∀ x, x / bsize < maxfile → byteAt disk' ip'.toDinode x =
    if lo ≤ x ∧ x < lo + bytes.length then bytes.getD (x - lo) 0 else byteAt disk ip.toDinode x
  assigned : ∀ bn, bn < maxfile → ip.addr disk (blockPlace bn) ≠ 0 ∨ Touches lo bytes.length bn →
    ip'.addr disk' (blockPlace bn) ≠ 0
  touched : ip.type = tChecked → ∀ bn, bn < maxfile → Touches lo bytes.length bn →
    Sound disk' ip'.toDinode bn
  untouched : ∀ bn, bn < maxfile → ¬ Touches lo bytes.length bn →
    (Sound disk ip.toDinode bn → Sound disk' ip'.toDinode bn) ∧
      (ip.addr disk (blockPlace bn) ≠ 0 → ip'.word disk' (blockPlace bn) = ip.word disk (blockPlace bn) ∧
        disk' (ip.addr disk (blockPlace bn)) = disk (ip.addr disk (blockPlace bn)))

namespace Stored

variable {sb : Superblock} {disk₀ disk disk' : Nat → Sector} {ip₀ ip ip' : Inode} {lo cur : Nat}
variable {bytes chunk : List UInt8}

theorem refl (disk : Nat → Sector) (ip : Inode) (lo : Nat) : Stored disk ip lo [] disk ip := by
  have hnone : ∀ bn, ¬ Touches lo 0 bn := by
    rintro bn ⟨o, hlo, hhi, _⟩
    omega
  refine ⟨rfl, ?_, ?_, ?_, fun _ _ _ => ⟨id, fun _ => ⟨rfl, rfl⟩⟩⟩
  · intro x _
    rw [if_neg]
    rintro ⟨hlo, hhi⟩
    exact absurd hhi (by simp only [List.length_nil]; omega)
  · rintro bn _ (ha | ht)
    · exact ha
    · exact absurd ht (hnone bn)
  · intro _ bn _ ht
    exact absurd ht (hnone bn)

/-- One more turn. -/
theorem turn (h : Stored disk₀ ip₀ lo bytes disk ip) (hcur : cur = lo + bytes.length)
    (hbn : cur / bsize < maxfile) (hpos : 0 < chunk.length) (hfit : cur % bsize + chunk.length ≤ bsize)
    (hturn : Turn sb disk ip (blockPlace (cur / bsize)) (cur % bsize) chunk disk' ip') :
    Stored disk₀ ip₀ lo (bytes ++ chunk) disk' ip' := by
  have hlen : (bytes ++ chunk).length = bytes.length + chunk.length := List.length_append
  -- the bytes of the chunk are in the block of this turn
  have hin : ∀ x, cur ≤ x → x < cur + chunk.length → x / bsize = cur / bsize := by
    intro x hlo hhi
    simp only [bsize] at hfit ⊢
    omega
  have hsplit : ∀ bn, Touches lo (bytes ++ chunk).length bn →
      Touches lo bytes.length bn ∨ bn = cur / bsize := by
    rintro bn ⟨o, hlo, hhi, rfl⟩
    rw [hlen] at hhi
    by_cases ho : o < cur
    · exact .inl ⟨o, hlo, by omega, rfl⟩
    · exact .inr (hin o (by omega) (by omega))
  have hother : ∀ {bn}, bn < maxfile → bn ≠ cur / bsize → blockPlace bn ≠ blockPlace (cur / bsize) :=
    fun hb hne heq => hne (blockPlace_inj hb hbn heq)
  refine ⟨hturn.type_eq.trans h.type, ?_, ?_, ?_, ?_⟩
  · intro x hx
    have hold := h.byte x hx
    have hnew : byteAt disk' ip'.toDinode x = if cur ≤ x ∧ x < cur + chunk.length then
        chunk.getD (x - cur) 0 else byteAt disk ip.toDinode x := by
      by_cases hxb : x / bsize = cur / bsize
      · rw [hturn.byteAt_eq hxb]
        have hiff : (cur % bsize ≤ x % bsize ∧ x % bsize < cur % bsize + chunk.length) ↔
            (cur ≤ x ∧ x < cur + chunk.length) := by
          simp only [bsize] at hxb hfit ⊢
          omega
        have hsub : x % bsize - cur % bsize = x - cur := by
          simp only [bsize] at hxb ⊢
          omega
        rw [hsub]
        simp only [hiff]
      · rw [if_neg fun hc => hxb (hin x hc.1 hc.2)]
        exact hturn.byteAt_ne (hother hx hxb)
    rw [hnew, hold, hlen]
    by_cases h1 : cur ≤ x ∧ x < cur + chunk.length
    · rw [if_pos h1, if_pos (by omega), List.getD_append_right _ _ _ _ (by omega)]
      congr 1
      omega
    · rw [if_neg h1]
      by_cases h2 : lo ≤ x ∧ x < lo + bytes.length
      · rw [if_pos h2, if_pos (by omega), List.getD_append _ _ _ _ (by omega)]
      · rw [if_neg h2, if_neg (by omega)]
  · rintro bn hb (ha | ht)
    · exact hturn.assigned_of (h.assigned bn hb (.inl ha))
    · rcases hsplit bn ht with ht | rfl
      · exact hturn.assigned_of (h.assigned bn hb (.inr ht))
      · exact hturn.assigned
  · intro htype bn hb ht
    by_cases hbc : bn = cur / bsize
    · rw [hbc]
      exact hturn.sound_eq (h.type.trans htype)
    · rcases hsplit bn ht with ht | hc
      · exact hturn.sound_ne (hother hb hbc) (h.touched htype bn hb ht)
      · exact absurd hc hbc
  · intro bn hb ht
    have hold : ¬ Touches lo bytes.length bn := by
      rintro ⟨o, hlo, hhi, ho⟩
      exact ht ⟨o, hlo, by omega, ho⟩
    have hbc : bn ≠ cur / bsize := by
      rintro rfl
      exact ht ⟨cur, by omega, by omega, rfl⟩
    obtain ⟨hs, hk⟩ := h.untouched bn hb hold
    refine ⟨fun h0 => hturn.sound_ne (hother hb hbc) (hs h0), ?_⟩
    intro ha
    obtain ⟨hw, hd⟩ := hk ha
    have haddr : ip.addr disk (blockPlace bn) = ip₀.addr disk₀ (blockPlace bn) := by
      rw [Dinode.addr, hw, h.type, Dinode.addr]
    have ha' : ip.addr disk (blockPlace bn) ≠ 0 := by rwa [haddr]
    refine ⟨(hturn.word _ (hother hb hbc) ha').trans hw, ?_⟩
    rw [← haddr, hturn.block_ne (hother hb hbc) (blockPlace_ne_indirect bn) ha', haddr, hd]

end Stored

section Writei

variable {sb : Superblock} {s : Bufs} {ip : Inode} {off n : UInt32} {src : List UInt8} {dev : Devsw}

theorem grown_word {disk : Nat → Sector} {n : UInt32} (q : Place) :
    (grown ip off n).word disk q = ip.word disk q := by
  unfold grown
  split <;> cases q <;> rfl

theorem grown_addr {disk : Nat → Sector} {n : UInt32} (q : Place) :
    (grown ip off n).addr disk q = ip.addr disk q := by
  rw [Dinode.addr, grown_word, grown_type, Dinode.addr]

/-- `iupdate` leaves the blocks of the file alone. -/
theorem Holding.sameFile_putNode {disk : Nat → Sector} (hh : Holding sb disk ip) :
    SameFile disk (putNode disk ip) ip.toDinode := by
  have hnode : nodesWith disk ip ip.inum = ip.toDinode := Function.update_self ..
  rw [← hnode]
  exact SameFile.putNode hh.ledger hh.number (by rw [hnode]; exact hh.allocated)
    (Superblock.inodeBlock_iblock hh.number)

/-- The new size and `iupdate` do not touch the bytes. -/
theorem Stored.finish {disk₀ disk : Nat → Sector} {ip₀ : Inode} {lo : Nat} {bytes : List UInt8}
    {count : UInt32} (h : Stored disk₀ ip₀ lo bytes disk ip) (hh : Holding sb disk (grown ip off count)) :
    Stored disk₀ ip₀ lo bytes (putNode disk (grown ip off count)) (grown ip off count) := by
  have hfile : SameFile disk (putNode disk (grown ip off count)) (grown ip off count).toDinode :=
    hh.sameFile_putNode
  have hbyte : ∀ x, byteAt disk (grown ip off count).toDinode x = byteAt disk ip.toDinode x := by
    intro x
    simp only [byteAt, grown_addr]
  have hsound : ∀ bn, Sound disk (grown ip off count).toDinode bn ↔ Sound disk ip.toDinode bn := by
    intro bn
    simp only [Sound, grown_addr, grown_word]
  refine ⟨grown_type.trans h.type, ?_, ?_, ?_, ?_⟩
  · intro x hx
    rw [hfile.byteAt_eq, hbyte]
    exact h.byte x hx
  · intro bn hbn ht
    rw [hfile.addr, grown_addr]
    exact h.assigned bn hbn ht
  · intro htype bn hbn ht
    exact hfile.sound ((hsound bn).mpr (h.touched htype bn hbn ht))
  · intro bn hbn ht
    obtain ⟨hs, hk⟩ := h.untouched bn hbn ht
    refine ⟨fun h0 => hfile.sound ((hsound bn).mpr (hs h0)), ?_⟩
    intro ha
    obtain ⟨hw, hd⟩ := hk ha
    have haddr : (grown ip off count).addr disk (blockPlace bn) = ip₀.addr disk₀ (blockPlace bn) := by
      rw [grown_addr, Dinode.addr, hw, h.type, Dinode.addr]
    refine ⟨by rw [hfile.word, grown_word, hw], ?_⟩
    have := hfile.block (blockPlace bn) (by rwa [haddr])
    rw [haddr] at this
    rw [this, hd]

/-- `writei` stores the bytes. -/
theorem writei_stored {E : Prop} (h : Holding sb s.disk ip) (hbusy : s.busy = [])
    (hdev : ip.type ≠ tDev) (hoff : ¬ (off > ip.size ∨ off + n < off))
    (hlen : (writeCount off n).toNat ≤ src.length)
    (hE : ¬ Room sb s.disk ip ∨ maxfile * bsize < off.toNat + (writeCount off n).toNat → E) :
    Ends (writei dev ip src off n) s E fun r t => r.1 = (writeCount off n).toInt32 ∧ t.busy = [] ∧
      ∃ disk ip', Holding sb disk ip' ∧ ip' = { ip with addrs := ip'.addrs } ∧
        Stored s.disk ip off.toNat (src.take (writeCount off n).toNat) disk ip' ∧
          r.2 = grown ip' off (writeCount off n) ∧ t.disk = putNode disk r.2 := by
  generalize hcount : (writeCount off n).toNat = total at hlen hE ⊢
  refine (writei_ends (E := E) (I := fun ps rest disk ip' => ∃ cur rem fuel bytes,
    ps = pieces fuel cur rem ∧ rem ≤ fuel ∧ cur = off.toNat + bytes.length ∧ rem ≤ rest.length ∧
      bytes ++ rest.take rem = src.take total ∧ Stored s.disk ip off.toNat bytes disk ip')
    ?_ h hbusy hdev hoff ?_ ?_).mono id ?_
  · rintro o₁ m ps rest disk ip₁ disk' ip₂ ⟨cur, rem, fuel, bytes, hps, hfuel, hcur, hrem, hsrc, hst⟩
      hbn hturn
    cases fuel with
    | zero => cases hps
    | succ fuel =>
        unfold pieces at hps
        by_cases hr0 : rem = 0
        · rw [if_pos hr0] at hps
          cases hps
        rw [if_neg hr0] at hps
        obtain ⟨hhead, htail⟩ := List.cons.inj hps
        obtain ⟨rfl, rfl⟩ := Prod.mk.inj hhead
        have hmod : o₁ % bsize < bsize := Nat.mod_lt _ (by decide)
        have hchunk : (rest.take (min rem (bsize - o₁ % bsize))).length =
            min rem (bsize - o₁ % bsize) := by
          rw [List.length_take]
          omega
        refine ⟨o₁ + min rem (bsize - o₁ % bsize), rem - min rem (bsize - o₁ % bsize), fuel,
          bytes ++ rest.take (min rem (bsize - o₁ % bsize)), htail, by omega, ?_, ?_, ?_, ?_⟩
        · rw [List.length_append, hchunk]
          omega
        · rw [List.length_drop]
          omega
        · rw [List.append_assoc, ← hsrc]
          congr 1
          have hsum : rem = min rem (bsize - o₁ % bsize) + (rem - min rem (bsize - o₁ % bsize)) := by
            omega
          conv_rhs => rw [hsum, List.take_add]
        · exact hst.turn hcur hbn (by omega) (by omega) hturn
  · refine ⟨off.toNat, total, total, [], by rw [hcount], le_rfl, rfl, hlen, rfl, ?_⟩
    exact Stored.refl _ _ _
  · rintro (hroom | ⟨r, hr, hmax⟩)
    · exact hE (.inl hroom)
    · rw [hcount] at hr
      have := mem_pieces hr
      refine hE (.inr ?_)
      simp only [maxfile, bsize] at hmax ⊢
      omega
  · rintro r t ⟨hret, htb, disk, ip', rest, hh, hsame,
      ⟨cur, rem, fuel, bytes, hps, hfuel, _, _, hsrc, hst⟩, hr, ht⟩
    have hrem : rem = 0 := pieces_eq_nil hfuel hps.symm
    rw [hrem, List.take_zero, List.append_nil] at hsrc
    rw [hsrc] at hst
    exact ⟨hret, htb, disk, ip', hh, hsame, hst, hr, ht⟩

end Writei

end Xv6
end LfsXv6
