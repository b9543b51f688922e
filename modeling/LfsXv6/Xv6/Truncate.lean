import LfsXv6.Xv6.Writes

/-!
# Truncate — `itrunc` gives back the blocks of an inode

`itrunc` passes the words of an inode to `bfree` as they are stored.  Where none of them has a checksum
in its top byte (`Plain`) they are the addresses of the inode's blocks, and exactly these are given
back.  `Freeing` follows the ledger through the calls of `bfree`, while the words are still there.
-/

namespace LfsXv6
namespace Xv6

open Lib Prog

/-- No word of the inode has a checksum: those of a checked file are below `2^24`. -/
def Plain (disk : Nat → Sector) (n : Dinode) : Prop :=
  n.type = tChecked → ∀ p, (n.word disk p).toNat < 2 ^ 24

theorem Plain.addr {disk : Nat → Sector} {n : Dinode} (h : Plain disk n) (p : Place) :
    n.addr disk p = (n.word disk p).toNat := by
  rw [Dinode.addr, addrOf_toNat]
  split
  · rename_i ht
    exact Nat.mod_eq_of_lt (h ht p)
  · rfl

/-- Some references of inode `i` were given back, and nothing else happened. -/
structure Freeing (sb : Superblock) (i : Nat) (disk₀ : Nat → Sector) (ref₀ : Nat × Place → Nat)
    (disk : Nat → Sector) (ref : Nat × Place → Nat) : Prop where
  ledger : Ledger sb disk ref
  sub : ∀ r, ref r = ref₀ r ∨ (r.1 = i ∧ ref r = 0)
  kept : ∀ b, ¬ sb.BitmapBlock b → disk b = disk₀ b ∨
    ∃ p, ref₀ (i, p) = b ∧ ref (i, p) = 0 ∧ b ≠ 0

namespace Freeing

variable {sb : Superblock} {i : Nat} {disk₀ : Nat → Sector} {ref₀ ref : Nat × Place → Nat} {s : Bufs}
variable {p : Place} {b : UInt32}

theorem start {disk : Nat → Sector} (h : Ledger sb disk ref) : Freeing sb i disk ref disk ref :=
  ⟨h, fun _ => .inl rfl, fun _ _ => .inl rfl⟩

theorem bfree (h : Freeing sb i disk₀ ref₀ s.disk ref) (hq : Quiet sb s.busy)
    (hp : ref (i, p) = b.toNat) (hb : b ≠ 0) (hnot : b.toNat ∉ s.busy) :
    ∃ disk, Xv6.bfree b s = .ok ((), { s with disk := disk }) ∧
      Freeing sb i disk₀ ref₀ disk (Function.update ref (i, p) 0) := by
  have hpos : ref (i, p) ≠ 0 := by
    rw [hp]
    exact fun h0 => hb (UInt32.toNat_inj.mp h0)
  obtain ⟨hlo, hhi⟩ := h.ledger.inside _ hpos
  refine ⟨_, bfree_ok h.ledger hq hp hb hnot, ?_, ?_, ?_⟩
  · rw [← hp]
    exact h.ledger.unmark hpos
  · intro r
    by_cases hr : r = (i, p)
    · subst hr
      exact .inr ⟨rfl, Function.update_self ..⟩
    · rw [Function.update_of_ne hr]
      exact h.sub r
  · intro c hc
    by_cases hcb : c = b.toNat
    · refine .inr ⟨p, ?_, Function.update_self .., by omega⟩
      rcases h.sub (i, p) with heq | ⟨_, h0⟩
      · omega
      · exact absurd h0 hpos
    · rw [unmark_of_not_bitmap (by omega) hc hcb]
      rcases h.kept c hc with heq | ⟨q, hq₀, hq, hc0⟩
      · exact .inl heq
      · refine .inr ⟨q, hq₀, ?_, hc0⟩
        by_cases hqp : q = p
        · rw [hqp, Function.update_self]
        · rw [Function.update_of_ne fun hc => hqp (Prod.mk.inj hc).2]
          exact hq

/-- A word that may be zero. -/
theorem bfree_word (h : Freeing sb i disk₀ ref₀ s.disk ref) (hq : Quiet sb s.busy)
    (hp : ref (i, p) = b.toNat) (hnot : b ≠ 0 → b.toNat ∉ s.busy) :
    ∃ disk, (if b ≠ 0 then Xv6.bfree b else pure ()) s = .ok ((), { s with disk := disk }) ∧
      Freeing sb i disk₀ ref₀ disk (Function.update ref (i, p) 0) := by
  by_cases hb : b = 0
  · refine ⟨s.disk, by rw [if_neg (not_not.mpr hb)]; rfl, ?_⟩
    have h0 : ref (i, p) = 0 := by
      rw [hp, hb]
      rfl
    rw [← h0, Function.update_eq_self]
    exact h
  · rw [if_pos hb]
    exact h.bfree hq hp hb (hnot hb)

/-- The entries of the indirect block. -/
theorem entries (a : Sector) {js : List (Fin 128)} (hnodup : js.Nodup)
    (h : Freeing sb i disk₀ ref₀ s.disk ref) (hq : Quiet sb s.busy)
    (hp : ∀ j ∈ js, ref (i, .entry j) = (a.word j).toNat)
    (hnot : ∀ j ∈ js, a.word j ≠ 0 → (a.word j).toNat ∉ s.busy) :
    ∃ disk ref', itruncEntries a (js.map Fin.val) s = .ok ((), { s with disk := disk }) ∧
      Freeing sb i disk₀ ref₀ disk ref' ∧ (∀ j ∈ js, ref' (i, .entry j) = 0) ∧
        ∀ r, (∀ j ∈ js, r ≠ (i, .entry j)) → ref' r = ref r := by
  induction js generalizing s ref with
  | nil =>
      exact ⟨s.disk, ref, rfl, h, fun j hj => absurd hj List.not_mem_nil, fun _ _ => rfl⟩
  | cons j js ih =>
      obtain ⟨hj, hnodup⟩ := List.nodup_cons.mp hnodup
      obtain ⟨disk, hrun, hfree⟩ := h.bfree_word hq (hp j List.mem_cons_self) (hnot j List.mem_cons_self)
      have hother : ∀ j' ∈ js, (i, Place.entry j') ≠ (i, Place.entry j) := by
        rintro j' hj' heq
        have hjj : j' = j := by simpa using heq
        rw [hjj] at hj'
        exact hj hj'
      obtain ⟨disk', ref', hrun', hfree', hzero, hsame⟩ := ih (s := { s with disk := disk }) hnodup hfree hq
        (fun j' hj' => by
          rw [Function.update_of_ne (hother j' hj')]
          exact hp j' (List.mem_cons_of_mem _ hj'))
        (fun j' hj' => hnot j' (List.mem_cons_of_mem _ hj'))
      refine ⟨disk', ref', ?_, hfree', ?_, ?_⟩
      · unfold itruncEntries at hrun' ⊢
        rw [List.map_cons, each, bind_of_ok hrun, hrun']
      · intro j' hj'
        rcases List.mem_cons.mp hj' with rfl | hj'
        · rw [hsame _ fun j'' hj'' heq => hother j'' hj'' heq.symm, Function.update_self]
        · exact hzero j' hj'
      · intro r hr
        rw [hsame r fun j' hj' => hr j' (List.mem_cons_of_mem _ hj'),
          Function.update_of_ne (hr j List.mem_cons_self)]

/-- The direct blocks. -/
theorem direct (ip : Inode) {ks : List (Fin 13)} (hnodup : ks.Nodup)
    (h : Freeing sb i disk₀ ref₀ s.disk ref) (hbusy : s.busy = [])
    (hp : ∀ k ∈ ks, ref (i, .slot k) = (ip.addrs k).toNat) :
    ∃ disk ref', itruncDirect ip ks s =
        .ok ({ ip with addrs := fun k => if k ∈ ks then 0 else ip.addrs k }, { s with disk := disk }) ∧
      Freeing sb i disk₀ ref₀ disk ref' ∧ (∀ k ∈ ks, ref' (i, .slot k) = 0) ∧
        ∀ r, (∀ k ∈ ks, r ≠ (i, .slot k)) → ref' r = ref r := by
  induction ks generalizing s ref ip with
  | nil =>
      exact ⟨s.disk, ref, rfl, h, fun k hk => absurd hk List.not_mem_nil, fun _ _ => rfl⟩
  | cons k ks ih =>
      obtain ⟨hk, hnodup⟩ := List.nodup_cons.mp hnodup
      have hq : Quiet sb s.busy := by
        rw [hbusy]
        exact Quiet.nil
      obtain ⟨disk, hrun, hfree⟩ := h.bfree_word hq (hp k List.mem_cons_self)
        (fun _ => by rw [hbusy]; exact List.not_mem_nil)
      have hother : ∀ k' ∈ ks, (i, Place.slot k') ≠ (i, Place.slot k) := by
        rintro k' hk' heq
        have hkk : k' = k := by simpa using heq
        rw [hkk] at hk'
        exact hk hk'
      have hkeep : ∀ k' ∈ ks, (ip.setAddr k 0).addrs k' = ip.addrs k' := by
        intro k' hk'
        refine Function.update_of_ne ?_ _ _
        rintro rfl
        exact hk hk'
      obtain ⟨disk', ref', hrun', hfree', hzero, hsame⟩ := ih (ip.setAddr k 0)
        (s := { s with disk := disk }) hnodup hfree hbusy
        (fun k' hk' => by
          rw [Function.update_of_ne (hother k' hk'), hkeep k' hk']
          exact hp k' (List.mem_cons_of_mem _ hk'))
      have hnode : ({ ip.setAddr k 0 with
          addrs := fun k' => if k' ∈ ks then 0 else (ip.setAddr k 0).addrs k' } : Inode) =
            { ip with addrs := fun k' => if k' ∈ k :: ks then 0 else ip.addrs k' } := by
        refine Inode.ext rfl rfl rfl rfl rfl (funext fun k' => ?_) rfl
        simp only [Inode.setAddr, Function.update_apply, List.mem_cons]
        by_cases hkk : k' = k <;> by_cases hk' : k' ∈ ks <;> simp [hkk, hk']
      have hcons : itruncDirect ip (k :: ks) s =
          itruncDirect (ip.setAddr k 0) ks { s with disk := disk } := by
        rw [itruncDirect]
        by_cases h0 : ip.addrs k = 0
        · -- nothing was freed, and the slot is zero already
          rw [if_neg (not_not.mpr h0)] at hrun ⊢
          have hs : s = { s with disk := disk } := (Prod.mk.inj (Except.ok.inj hrun)).2
          have hself : ip.setAddr k 0 = ip := by
            rw [Inode.setAddr, ← h0, Function.update_eq_self]
          rw [hself, ← hs]
        · rw [if_pos h0] at hrun ⊢
          rw [bind_of_ok hrun]
      refine ⟨disk', ref', ?_, hfree', ?_, ?_⟩
      · rw [hcons, hrun', ← hnode]
      · intro k' hk'
        rcases List.mem_cons.mp hk' with rfl | hk'
        · rw [hsame _ fun k'' hk'' heq => hother k'' hk'' heq.symm, Function.update_self]
        · exact hzero k' hk'
      · intro r hr
        rw [hsame r fun k' hk' => hr k' (List.mem_cons_of_mem _ hk'),
          Function.update_of_ne (hr k List.mem_cons_self)]

/-- The indirect block: its entries first, then the block itself. -/
theorem indirect (ip : Inode) (h : Freeing sb i disk₀ ref₀ s.disk ref) (hbusy : s.busy = [])
    (hp : ref (i, .indirect) = (ip.addrs 12).toNat)
    (hentry : ∀ j, ref (i, .entry j) =
      if ip.addrs 12 = 0 then 0 else ((s.disk (ip.addrs 12).toNat).word j).toNat) :
    ∃ disk ref', itruncIndirect ip s = .ok (ip.setAddr 12 0, { s with disk := disk }) ∧
      Freeing sb i disk₀ ref₀ disk ref' ∧ ref' (i, .indirect) = 0 ∧ (∀ j, ref' (i, .entry j) = 0) ∧
        ∀ k, k ≠ 12 → ref' (i, .slot k) = ref (i, .slot k) := by
  unfold itruncIndirect
  by_cases h0 : ip.addrs 12 = 0
  · have hself : ip.setAddr 12 0 = ip := by
      rw [Inode.setAddr, ← h0, Function.update_eq_self]
    refine ⟨s.disk, ref, ?_, h, by rw [hp, h0]; rfl, ?_, fun _ _ => rfl⟩
    · rw [if_neg (not_not.mpr h0), hself]
      rfl
    · intro j
      rw [hentry, if_pos h0]
  have hpos : ref (i, .indirect) ≠ 0 := by
    rw [hp]
    exact fun hc => h0 (UInt32.toNat_inj.mp hc)
  simp only [if_neg h0] at hentry
  have hnot : (ip.addrs 12).toNat ∉ s.busy := by
    rw [hbusy]
    exact List.not_mem_nil
  have hq : Quiet sb ((ip.addrs 12).toNat :: s.busy) := by
    rw [hbusy]
    refine ⟨?_, by simp [nbuf]⟩
    intro b hb
    rw [List.mem_singleton.mp hb, ← hp]
    exact (h.ledger.inside _ hpos).1
  obtain ⟨disk, ref', hrun, hfree, hzero, hsame⟩ := entries (s := { s with
      busy := (ip.addrs 12).toNat :: s.busy }) (s.disk (ip.addrs 12).toNat) (List.nodup_finRange 128) h hq
    (fun j _ => hentry j) (by
      intro j _ _ hmem
      have hval : ((s.disk (ip.addrs 12).toNat).word j).toNat = (ip.addrs 12).toNat := by
        simpa [hbusy] using hmem
      have heq : ref (i, .indirect) = ref (i, .entry j) := by
        rw [hp, hentry, hval]
      have := h.ledger.once _ _ hpos heq
      simp at this)
  have hind : ref' (i, .indirect) = (ip.addrs 12).toNat := by
    rw [hsame _ fun j _ heq => by simp at heq, hp]
  have hquiet : Quiet sb s.busy := by
    rw [hbusy]
    exact Quiet.nil
  obtain ⟨disk', hrun', hfree'⟩ := bfree (s := { s with disk := disk }) hfree hquiet hind h0 hnot
  have hrange : (List.finRange 128).map Fin.val = List.range nindirect := List.map_coe_finRange_eq_range
  rw [hrange] at hrun
  refine ⟨disk', _, ?_, hfree', Function.update_self .., ?_, ?_⟩
  · rw [if_pos h0, bind_of_ok (bread_ok hnot (by rw [hbusy]; decide)), bind_of_ok hrun,
      bind_of_ok (brelse_ok List.mem_cons_self), List.erase_cons_head, bind_of_ok hrun']
    rfl
  · intro j
    rw [Function.update_of_ne (by simp), hzero j (List.mem_finRange j)]
  · intro k hk
    rw [Function.update_of_ne (by simp [hk]), hsame _ fun j _ heq => by simp at heq]

end Freeing

section Itrunc

variable {sb : Superblock} {s : Bufs} {ip : Inode}

/-- An inode without blocks. -/
def emptied (ip : Inode) : Inode := { ip with addrs := fun _ => 0, size := 0 }

/-- `itrunc` gives back every block of the inode. -/
theorem itrunc_ok (h : Holding sb s.disk ip) (hbusy : s.busy = []) (hplain : Plain s.disk ip.toDinode) :
    ∃ disk ref, itrunc ip s = .ok (emptied ip, { s with disk := putNode disk (emptied ip) }) ∧
      Freeing sb ip.inum s.disk (refs sb s.disk (nodesWith s.disk ip)) disk ref ∧
        ∀ p, ref (ip.inum, p) = 0 := by
  have href : ∀ p, refs sb s.disk (nodesWith s.disk ip) (ip.inum, p) = (ip.word s.disk p).toNat := by
    intro p
    rw [h.refs_self, hplain.addr]
  have hslots : directSlots.Nodup := by decide
  obtain ⟨disk₁, ref₁, hrun₁, hfree₁, hzero₁, hsame₁⟩ :=
    (Freeing.start (i := ip.inum) h.ledger).direct ip hslots hbusy (fun k _ => href (.slot k))
  have hkey : ∀ p, (∀ k ∈ directSlots, p ≠ .slot k) →
      ref₁ (ip.inum, p) = (ip.word s.disk p).toNat := by
    intro p hp
    rw [hsame₁ _ fun k hk heq => hp k hk (Prod.mk.inj heq).2, href]
  have h12 : ∀ k ∈ directSlots, Place.indirect ≠ .slot k := by decide
  have hmem : ∀ k : Fin 13, k ∈ directSlots ∨ k = 12 := by decide
  have hnot12 : (12 : Fin 13) ∉ directSlots := by decide
  have haddr : (if (12 : Fin 13) ∈ directSlots then 0 else ip.addrs 12) = ip.addrs 12 := if_neg hnot12
  -- the indirect block is still as it was
  have hblock : ip.addrs 12 ≠ 0 → disk₁ (ip.addrs 12).toNat = s.disk (ip.addrs 12).toNat := by
    intro hne
    have hpos : refs sb s.disk (nodesWith s.disk ip) (ip.inum, .indirect) ≠ 0 := by
      rw [href]
      exact fun hc => hne (UInt32.toNat_inj.mp hc)
    have hval : refs sb s.disk (nodesWith s.disk ip) (ip.inum, .indirect) = (ip.addrs 12).toNat :=
      href .indirect
    rcases hfree₁.kept (ip.addrs 12).toNat (by rw [← hval]; exact (h.ledger.data_of_ref hpos).2.2) with
      heq | ⟨p, hp₀, hp, _⟩
    · exact heq
    · have hpi := (Prod.mk.inj (h.ledger.once _ _ hpos (hval.trans hp₀.symm))).2
      rw [← hpi, hkey _ h12, ← href] at hp
      exact absurd hp hpos
  have hentry : ∀ j, ref₁ (ip.inum, .entry j) =
      if ip.addrs 12 = 0 then 0 else ((disk₁ (ip.addrs 12).toNat).word j).toNat := by
    intro j
    have hind : ip.indirect = (ip.addrs 12).toNat := hplain.addr .indirect
    rw [hkey _ fun k _ => by simp]
    by_cases h0 : ip.addrs 12 = 0
    · have hzero : ip.indirect = 0 := by rw [hind, h0]; rfl
      simp only [if_pos h0, Dinode.word, if_pos hzero]
      rfl
    · have hne : ip.indirect ≠ 0 := by
        rw [hind]
        exact fun hc => h0 (UInt32.toNat_inj.mp hc)
      simp only [if_neg h0, Dinode.word, if_neg hne, hblock h0]
      rw [hind]
  obtain ⟨disk, ref, hrun, hfree, hzi, hze, hzs⟩ := Freeing.indirect (s := { s with disk := disk₁ })
    { ip with addrs := fun k => if k ∈ directSlots then 0 else ip.addrs k } hfree₁ hbusy
    (by simp only [haddr]; exact hkey _ h12) (by simp only [haddr]; exact hentry)
  refine ⟨disk, ref, ?_, hfree, ?_⟩
  · have hempty : ({ ({ ip with addrs := fun k => if k ∈ directSlots then 0 else ip.addrs k } :
        Inode).setAddr 12 0 with size := 0 } : Inode) = emptied ip := by
      refine Inode.ext rfl rfl rfl rfl rfl (funext fun k => ?_) rfl
      simp only [Inode.setAddr, emptied, Function.update_apply]
      rcases hmem k with hk | hk
      · simp [hk]
      · simp [hk]
    unfold itrunc
    rw [bind_of_ok hrun₁, bind_of_ok hrun]
    simp only [hempty]
    rw [bind_of_ok (iupdate_ok (s := { s with disk := disk }) hbusy)]
    rfl
  · intro p
    cases p with
    | slot k =>
        rcases hmem k with hk | rfl
        · rw [hzs k (by rintro rfl; exact hnot12 hk), hzero₁ k hk]
        · exact hzi
    | entry j => exact hze j

theorem emptied_addr (disk : Nat → Sector) (p : Place) : (emptied ip).addr disk p = 0 := by
  have hind : (emptied ip).indirect = 0 := by
    simp [Dinode.indirect, emptied]
  cases p with
  | slot k => simp [Dinode.addr, Dinode.word, emptied]
  | entry j => simp [Dinode.addr, Dinode.word, hind]

/-- The ledger after all blocks of an inode were given back is that of the empty inode. -/
theorem Freeing.refs_emptied {disk : Nat → Sector} {ref : Nat × Place → Nat} (h : Holding sb s.disk ip)
    (hf : Freeing sb ip.inum s.disk (refs sb s.disk (nodesWith s.disk ip)) disk ref)
    (hzero : ∀ p, ref (ip.inum, p) = 0) :
    refs sb disk (nodesWith disk (emptied ip)) = ref := by
  funext ⟨j, q⟩
  by_cases hj : j = ip.inum
  · subst hj
    rw [hzero]
    have hnode : nodesWith disk (emptied ip) ip.inum = (emptied ip).toDinode :=
      Function.update_self ..
    simp only [refs, hnode, emptied_addr, ite_self]
  · rw [h.refs_other disk (emptied ip) rfl ?_ hj q]
    · rcases hf.sub (j, q) with heq | ⟨hji, _⟩
      · exact heq.symm
      · exact absurd hji hj
    · intro b hb hbm hne
      rcases hf.kept b hbm with heq | ⟨p, hp, _, _⟩
      · exact heq
      · rw [h.refs_self] at hp
        exact absurd hp (hne p)

/-- `itrunc` frees the blocks of the inode, and touches nothing else but the bitmap and the inode. -/
structure Truncated (sb : Superblock) (disk : Nat → Sector) (ip : Inode) (disk' : Nat → Sector) : Prop where
  consistent : Consistent sb disk'
  node : dnode disk' ip.inum = (emptied ip).toDinode
  others : ∀ i, i < sb.ninodes.toNat → i ≠ ip.inum → dnode disk' i = dnode disk i
  freed : ∀ b, b < sb.cap → (marked sb disk' b ↔ marked sb disk b ∧ ∀ p, ip.addr disk p = b → b = 0)
  kept : ∀ b, ¬ sb.BitmapBlock b → b ≠ iblock ip.inum → (∀ p, ip.addr disk p = b → b = 0) →
    disk' b = disk b

theorem itrunc_truncated (h : Holding sb s.disk ip) (hbusy : s.busy = [])
    (hplain : Plain s.disk ip.toDinode) :
    ∃ disk, itrunc ip s = .ok (emptied ip, { s with disk := disk }) ∧
      Truncated sb s.disk ip disk := by
  obtain ⟨disk, ref, hrun, hfree, hzero⟩ := itrunc_ok h hbusy hplain
  have hrefs := hfree.refs_emptied h hzero
  have h2 := sb.two_lt_bitmapStart
  have hlt := sb.bitmapStart_lt_metaBlocks
  have hblock : sb.InodeBlock (iblock ip.inum) := Superblock.inodeBlock_iblock h.number
  have hput : ∀ b, b ≠ iblock ip.inum → putNode disk (emptied ip) b = disk b :=
    fun b hb => Function.update_of_ne hb _ _
  have hkept : ∀ b, ¬ sb.BitmapBlock b → (∀ p, ip.addr s.disk p = b → b = 0) → disk b = s.disk b := by
    intro b hbm hne
    rcases hfree.kept b hbm with heq | ⟨p, hp, _, hb⟩
    · exact heq
    · rw [h.refs_self] at hp
      exact absurd (hne p hp) hb
  refine ⟨_, hrun, ?_, ?_, ?_, ?_, ?_⟩
  · refine consistent_putNode h.small (Superblock.inodeBlock_iblock h.number) ?_
    rw [hrefs]
    exact hfree.ledger
  · rw [dnode_putNode]
    exact Function.update_self ..
  · intro i hi hne
    have hin := Superblock.inodeBlock_iblock hi
    have hupd : nodesWith disk (emptied ip) i = dnode disk i := Function.update_of_ne hne _ _
    rw [dnode_putNode, hupd, dnode, dnode, hkept]
    · rintro ⟨hle, _⟩
      exact absurd hin.2 (by omega)
    · rintro p hp
      by_contra hb
      rw [← hp] at hin hb
      have := (h.inside hb).1
      exact absurd hin.2 (by omega)
  · intro b hb
    have hbm := Superblock.bitmapBlock_bblock hb
    have hsame : marked sb (putNode disk (emptied ip)) b ↔ marked sb disk b := by
      rw [marked, hput _ ?_, marked]
      intro heq
      rw [heq] at hbm
      exact absurd hbm.1 (by have := hblock.2; omega)
    rw [hsame, hfree.ledger.bits b hb, h.ledger.bits b hb]
    by_cases hmeta : b < sb.metaBlocks
    · refine iff_of_true (.inl hmeta) ⟨.inl hmeta, ?_⟩
      intro p hp
      by_contra hne
      have := (h.inside (p := p) (by omega)).1
      omega
    simp only [hmeta, false_or]
    constructor
    · rintro ⟨r, hr⟩
      rcases hfree.sub r with heq | ⟨_, h0⟩
      · refine ⟨⟨r, by rw [← heq]; exact hr⟩, ?_⟩
        intro p hp
        by_contra hne
        have hp' : refs sb s.disk (nodesWith s.disk ip) (ip.inum, p) = b := by
          rw [h.refs_self, hp]
        have hkey := h.ledger.once (ip.inum, p) r (by rw [hp']; exact hne)
          (by rw [hp', ← heq]; exact hr.symm)
        rw [← hkey, hzero] at hr
        omega
      · omega
    · rintro ⟨⟨r, hr⟩, hne⟩
      refine ⟨r, ?_⟩
      rcases hfree.sub r with heq | ⟨hri, _⟩
      · rw [heq]
        exact hr
      · have hr' : ip.addr s.disk r.2 = b := by
          rw [← h.refs_self, ← hri]
          exact hr
        have := hne r.2 hr'
        omega
  · intro b hbm hbi hne
    rw [hput b hbi, hkept b hbm hne]

end Itrunc

end Xv6
end LfsXv6
