import LfsXv6.Linux.Removal
import LfsXv6.Linux.Rejection

/-!
# Creation — when `creat_server` succeeds, and what it changes

A creation in a directory succeeds as long as an inode number is free and one of the 14·128 places of
the directory is: a place in a block the directory has, or in a block that is added.  It takes the
lowest free number, stores one entry, and adds a block to the directory only when every place of the
blocks in use is taken.
-/

namespace LfsXv6
namespace Linux

open Lib

/-! ## Room -/

/-- The live entries of directory `p`. -/
def Server.entries (s : Server) (p : Int32) : Finset (Fin 14 × Fin 128) :=
  Finset.univ.filter fun x => (s.inode p).dpUsed x.1 = 1 ∧
    (dirAt s.file ((s.inode p).dpointers x.1)).inums x.2 ≠ -1

/-- Every slot of the used blocks of directory `p` is occupied. -/
def Server.Full (s : Server) (p : Int32) : Prop :=
  ∀ k, (s.inode p).dpUsed k = 1 → ∀ e, (dirAt s.file ((s.inode p).dpointers k)).inums e ≠ -1

section Room

variable {s : Server} {p : Int32} {name : Name}

theorem addEntry_isSome_iff {slots : List DirSlot} {i : Int32} :
    (addEntry slots name i).isSome = true ↔ none ∈ slots ∨ slots.length < 14 * 128 := by
  rw [addEntry]
  cases hins : SlotTable.insert (name.bytes, i) slots with
  | some l =>
      have hfree : none ∈ slots := by
        by_contra hfull
        rw [SlotTable.insert_eq_none_iff.mpr hfull] at hins
        exact absurd hins (by simp)
      simp [hfree]
  | none =>
      have hfull := SlotTable.insert_eq_none_iff.mp hins
      simp only [hfull, false_or]
      split <;> simp_all

theorem Directory.none_mem_slots {d : Directory} : none ∈ d.slots ↔ ∃ e, d.inums e = -1 := by
  simp only [Directory.slots, List.mem_map, List.mem_finRange, true_and, Directory.slot]
  refine exists_congr fun e => ?_
  split <;> simp_all

theorem WF.none_mem_iff (h : WF s) (hp : s.Allocated p) (hdir : (s.inode p).type = mfsDirectory) :
    none ∈ dirSlots s.file (s.inode p) ↔ ¬ s.Full p := by
  have hshape := (h.node p hp).dir hdir
  simp only [dirSlots, List.mem_flatMap, mem_firstBlocks, ← hshape.used_iff,
    Directory.none_mem_slots, Server.Full]
  push Not
  rfl

/-- A directory has room when a slot is free or another block may be added. -/
theorem WF.room_iff (h : WF s) (hp : s.Allocated p) (hdir : (s.inode p).type = mfsDirectory) :
    (s.entries p).card < 14 * 128 ↔
      none ∈ dirSlots s.file (s.inode p) ∨ (dirSlots s.file (s.inode p)).length < 14 * 128 := by
  have hshape := (h.node p hp).dir hdir
  have hcard : Fintype.card (Fin 14 × Fin 128) = 14 * 128 := by simp
  have hle : (s.entries p).card < 14 * 128 ↔ s.entries p ≠ Finset.univ := by
    rw [← hcard, Finset.card_lt_iff_ne_univ]
  have hlen := length_dirSlots s.file hshape.nblocks_le
  rw [hle, h.none_mem_iff hp hdir, hlen]
  constructor
  · intro hne
    by_contra hc
    rw [not_or, not_not] at hc
    refine hne (Finset.eq_univ_iff_forall.mpr ?_)
    rintro ⟨k, e⟩
    have hk : (s.inode p).dpUsed k = 1 := (hshape.used_iff k).mpr (by omega)
    exact Finset.mem_filter.mpr ⟨Finset.mem_univ _, hk, hc.1 k hk e⟩
  · intro hroom hall
    have hmem : ∀ k e, (s.inode p).dpUsed k = 1 ∧
        (dirAt s.file ((s.inode p).dpointers k)).inums e ≠ -1 := by
      intro k e
      have := Finset.eq_univ_iff_forall.mp hall (k, e)
      exact (Finset.mem_filter.mp this).2
    rcases hroom with hfull | hlt
    · exact hfull fun k _ e => (hmem k e).2
    · have hlast := (hshape.used_iff 13).mp (hmem 13 0).1
      have hval : ((13 : Fin 14) : Nat) = 13 := rfl
      omega

theorem InRange.eq_ofNat {i : Int32} (h : InRange i) : i = Int32.ofNat (blk i) := by
  obtain ⟨h0, hlt⟩ := h.blk_lt
  have hblk := blk_eq h0
  rw [← Int32.toInt_inj, Int32.toInt_ofNat_of_lt (by omega)]
  omega

theorem lt_of_blk_lt {i j : Int32} (hi : InRange i) (hj : InRange j) (h : i < j) : blk i < blk j := by
  have hi' := blk_eq hi.blk_lt.1
  have hj' := blk_eq hj.blk_lt.1
  have hlt := Int32.lt_iff_toInt_lt.mp h
  omega

/-- The search for a number runs through all of them, from the lowest on. -/
theorem Fs.freeInum_least (fs : Fs) :
    (fs.freeInum = -1 ∧ ∀ i, InRange i → fs i ≠ none) ∨
      (InRange fs.freeInum ∧ fs fs.freeInum = none ∧
        ∀ i, InRange i → i < fs.freeInum → fs i ≠ none) := by
  cases hfind : (List.range maxInodes).find? fun q => (fs (Int32.ofNat q)).isNone with
  | none =>
      left
      have hval : fs.freeInum = -1 := by
        unfold Fs.freeInum
        rw [hfind]
        rfl
      refine ⟨hval, ?_⟩
      intro i hi hnone
      have hall := List.find?_eq_none.mp hfind (blk i) (List.mem_range.mpr hi.blk_lt.2)
      rw [← hi.eq_ofNat, hnone] at hall
      exact hall rfl
  | some q =>
      right
      have hval : fs.freeInum = Int32.ofNat q := by
        unfold Fs.freeInum
        rw [hfind]
        rfl
      obtain ⟨hfree, hmem, hbefore⟩ := List.find?_range_eq_some.mp hfind
      have hr : InRange (Int32.ofNat q) := inRange_ofNat (List.mem_range.mp hmem)
      rw [hval]
      refine ⟨hr, Option.isNone_iff_eq_none.mp hfree, ?_⟩
      intro i hi hlt hnone
      have hq : blk (Int32.ofNat q) = q := by
        have hlt := List.mem_range.mp hmem
        simp only [maxInodes] at hlt
        rw [blk, Int32.toInt_ofNat_of_lt (by omega), Int.toNat_natCast]
      have hbad := hbefore (blk i) (by
        have := lt_of_blk_lt hi hr hlt
        omega)
      rw [← hi.eq_ofNat, hnone] at hbad
      exact absurd hbad (by simp)

theorem Fs.freeInum_ne_iff {fs : Fs} : fs.freeInum ≠ -1 ↔ ∃ i, InRange i ∧ fs i = none := by
  rcases fs.freeInum_least with ⟨hval, hall⟩ | ⟨hr, hnone, _⟩
  · refine ⟨fun hc => absurd hval hc, ?_⟩
    rintro ⟨i, hi, hnone⟩
    exact absurd hnone (hall i hi)
  · exact ⟨fun _ => ⟨_, hr, hnone⟩, fun _ => hr.ne_neg_one⟩

end Room

/-! ## The reply -/

section Reply

variable {s : Server} {p type : Int32} {name : Name} {slots : List DirSlot}

/-- The reply of `creat_server` does not depend on whether its blocks still fit. -/
theorem WF.creat_ret (h : WF s) (ha : Request.Addressed s (.creat p type name)) (st : Stack) :
    (creatServer s p type name st).1 = (s.tree.creat p type name).1 := by
  rcases h.creatServer_cases st ha with ⟨ret, q, heq, hexec, _⟩ | ⟨slots, slots', v, c, hr⟩
  · rw [Fs.exec] at hexec
    rw [heq, hexec]
  · have hent : s.tree.Enters p name slots slots' := by
      have hfree := freeInum_tree s
      refine ⟨hr.parent, hr.miss, ?_, ?_⟩
      · rw [hfree]
        exact hr.free.ne_neg_one
      · rw [hfree]
        exact hr.add
    rw [hr.eq, creatNode_fst, hent.creat_eq]
    split <;> rfl

/-- A creation of a known type in a directory that lacks the name. -/
theorem Fs.creat_eq_zero_iff {fs : Fs} (hp : fs p = some (.dir slots))
    (hmiss : lookupSlots slots name = -1) (htype : type = mfsDirectory ∨ type = mfsRegularFile) :
    (fs.creat p type name).1 = 0 ↔ ∃ slots', fs.Enters p name slots slots' := by
  constructor
  · intro hret
    by_cases hfree : fs.freeInum = -1
    · simp only [Fs.creat, hp, hmiss, hfree, ne_eq, not_true_eq_false, if_false, if_true] at hret
      exact absurd hret (by decide)
    cases hadd : addEntry slots name fs.freeInum with
    | none =>
        simp only [Fs.creat, hp, hmiss, hfree, hadd, ne_eq, not_true_eq_false, if_false] at hret
        exact absurd hret (by decide)
    | some slots' => exact ⟨slots', hp, hmiss, hfree, hadd⟩
  · rintro ⟨slots', hent⟩
    have hknown : ¬ UnknownType type := fun hc => (not_or.mpr hc) htype
    rw [hent.creat_eq, if_neg hknown]

end Reply

/-! ## The parent's inode -/

section Parent

variable {s : Server} {p inum type : Int32} {name : Name} {k : Fin 14} {e : Fin 128} {st : Stack}

theorem WF.putBlock_inode (h : WF s) (ha : s.Allocated p) (hk : (s.inode p).dpUsed k = 1)
    (d : Directory) : (putBlock s p k d).inode p = s.inode p :=
  SameBlock.inodeAt (h.replace_same (l := [_]) hk
    (fun w hw => by rw [List.mem_singleton.mp hw]; exact ⟨rfl, Nat.le_refl _⟩)
    (NodeWF.owns_inode ha) (Ne.symm ((h.node p ha).apart k hk)))

theorem WF.storeEntry_inode (h : WF s) (ha : s.Allocated p) (hk : (s.inode p).dpUsed k = 1)
    (past : Mem) : (storeEntry s p inum name k e past).inode p = s.inode p := by
  have hinode := rewriteInode_inode (s := s) (p := p) past
  rw [storeEntry, (h.rewriteInode_wf ha past).1.putBlock_inode ha (by rw [hinode]; exact hk), hinode]

theorem WF.storeExtended_inode (h : WF s) (ha : s.Allocated p)
    (hdir : (s.inode p).type = mfsDirectory) (hk : k.val = (s.inode p).nblocks) (past : Mem)
    (hb : (storeExtended s p inum name k (extensionBlock inum st k) past).Bounded) :
    (storeExtended s p inum name k (extensionBlock inum st k) past).inode p =
      (s.inode p).extended k s.nextBlock := by
  have hinode := extendDir_inode (s := s) (p := p) k (extensionBlock inum st k) past
  have hwf := (h.extendDir_wf (d := extensionBlock inum st k) ha hdir hk
    Directory.newDirBlock_false_slotOK (show (extendDir s p k _ past).Bounded from hb)).1
  have hused : ((s.inode p).extended k s.nextBlock).dpUsed k = 1 := by
    rw [extended_dpUsed, Function.update_self]
  rw [storeExtended, hwf.putBlock_inode ha (by rw [hinode]; exact hused), hinode]

/-- What follows once the entry is stored touches no block that is in use. -/
theorem WF.commit_same {v w : Server} {ws : List WriteCall} {i j x : Int32} (h : WF v)
    (hfile : w.file = v.file.pwrites ws) (hpast : ∀ c ∈ ws, PastLog v c) (hi : InRange i)
    (hji : j ≠ i) (hx : v.Owns j x) : SameBlock (updateCR w i).file v.file x := by
  have hall : (updateCR w i).file = v.file.pwrites (ws ++ crWrites w i) := by
    rw [updateCR_eq hi, File.pwrites_append, hfile]
  rw [hall]
  refine h.sameBlock_of_writeOK (t := i) ?_ hji hx
  intro c hc
  rcases List.mem_append.mp hc with hc | hc
  · exact (hpast c hc).writeOK i
  · exact Or.inl (crWrites_in_region hi c hc)

/-- What a creation that is answered with 0 makes of the inode map and of the parent's inode. -/
theorem WF.creat_parent (h : WF s) (hp : s.Allocated p) (hdir : (s.inode p).type = mfsDirectory)
    {slots' : List DirSlot} (hent : s.tree.Enters p name (dirSlots s.file (s.inode p)) slots')
    (htype : type = mfsDirectory ∨ type = mfsRegularFile) {t : Server}
    (ht : (creatServer s p type name st).2 = t) (hb : t.Bounded) :
    (∀ j, j ≠ s.tree.freeInum → t.imap j = s.imap j) ∧
      (¬ s.Full p → t.inode p = s.inode p) ∧
      (s.Full p → ∃ k : Fin 14, k.val = (s.inode p).nblocks ∧
        t.inode p = (s.inode p).extended k s.nextBlock) := by
  have haddr : Request.Addressed s (.creat p type name) := .inr hp
  have hret := h.creat_ret haddr st
  have hknown : ¬ UnknownType type := fun hc => (not_or.mpr hc) htype
  rcases h.creatServer_cases st haddr with
    ⟨ret, q, heq, hexec, hcost⟩ | ⟨slots, slots'', v, c, hr⟩
  · -- A creation that enters its name is not declined: it would change the file system.
    rw [Fs.exec, hent.creat_eq, if_neg hknown, Prod.mk.injEq] at hexec
    have hnew := congrFun hexec.2 s.tree.freeInum
    rw [Function.update_self, (Fs.freeInum_spec hent.free).2] at hnew
    exact absurd hnew (by simp)
  obtain ⟨h0, h1⟩ := h.fits_next
  have hnext := hr.next
  have hc : c ≤ 1 := by
    rw [hr.taken]
    split <;> omega
  have ht' : t = (creatNode p type (freeInum s.imap) st v).2 := by rw [← ht, hr.eq]
  rw [ht'] at hb
  obtain ⟨hbv, hfits'⟩ := bounded_of_creatNode (by omega) (by omega) hb
  have hst := hr.stored hbv
  have hpv : v.Allocated p := by
    rw [Server.Allocated, hst.imap_eq]
    exact hp
  have hinum : s.tree.freeInum = freeInum s.imap := freeInum_tree s
  have hne : p ≠ freeInum s.imap := by
    rw [← hinum]
    exact Ne.symm hent.inum_ne
  -- the new inode lies past the end of the log
  have htail : (∀ j, j ≠ freeInum s.imap → t.imap j = v.imap j) ∧ t.inode p = v.inode p := by
    have hsame : ∀ {w : Server} {ws : List WriteCall}, w.file = v.file.pwrites ws →
        (∀ c ∈ ws, PastLog v c) → (∀ j, j ≠ freeInum s.imap → w.imap j = v.imap j) →
        t = updateCR w (freeInum s.imap) →
        (∀ j, j ≠ freeInum s.imap → t.imap j = v.imap j) ∧ t.inode p = v.inode p := by
      intro w ws hfile hpast himap htw
      refine ⟨fun j hj => by rw [htw, updateCR_imap, himap j hj], ?_⟩
      rw [Server.inode, Server.inode, htw, updateCR_imap, himap p hne]
      exact (hst.wf.commit_same hfile hpast hr.free hne (NodeWF.owns_inode hpv)).inodeAt
    rcases htype with rfl | rfl
    · rw [creatNode_dir hst.wf.fits_next (hfits' rfl)] at ht'
      exact hsame rfl hst.wf.allocDirCalls_past (fun j hj => Function.update_of_ne hj _ _) ht'
    · rw [creatNode_file hst.wf.fits_next] at ht'
      exact hsame rfl hst.wf.allocFileCalls_past (fun j hj => Function.update_of_ne hj _ _) ht'
  refine ⟨fun j hj => ?_, ?_⟩
  · rw [hinum] at hj
    rw [htail.1 j hj, hst.imap_eq]
  · rw [htail.2]
    have hshape := (h.node p hp).dir hdir
    cases hr.stores with
    | @entry k e ha hd hfind =>
        have hmem := mem_of_findSlot hfind
        have hk : (s.inode p).dpUsed k = 1 := (hshape.used_iff k).mpr (mem_firstBlocks.mp hmem.1)
        refine ⟨fun _ => h.storeEntry_inode hp hk _, fun hfull => ?_⟩
        exact absurd (Directory.findFree_eq_some hmem.2) (hfull k hk e)
    | @extended k ha hd hk =>
        refine ⟨fun hroom => ?_, fun _ => ⟨k, hk, h.storeExtended_inode hp hdir hk _ hbv⟩⟩
        -- with a free slot no block is taken for the directory
        obtain rfl : dirSlots s.file (s.inode p) = slots := by
          have hparent := hr.parent
          rw [hent.parent, Option.some.injEq, Node.dir.injEq] at hparent
          exact hparent
        have hzero := hr.taken
        rw [if_pos ((h.none_mem_iff hp hdir).mpr hroom)] at hzero
        have hgrown := toInt_succ h.fits_next
        rw [hzero] at hnext
        simp only [storeExtended, putBlock, extendDir] at hnext
        omega

end Parent

/-! ## Room decides -/

section Decide

variable {s : Server} {p type : Int32} {name : Name} {st : Stack}

/-- **Room.**  In every state of a run from a fresh image, the creation of a file or directory under a
new name succeeds exactly when an inode number is free and the directory holds fewer than 14·128 live
entries.  Its size grows by a block exactly when every slot of its blocks is occupied. -/
theorem creat_room {stack : Directory} {xs : List Turn}
    (hrun : Run turn Admitted (format stack) xs s) (hp : s.Allocated p)
    (hdir : (s.inode p).type = mfsDirectory) (htype : type = mfsDirectory ∨ type = mfsRegularFile)
    (hmiss : (lookupServer s p name st).1 = -1) :
    ((creatServer s p type name st).1 = 0 ↔
      (∃ i, InRange i ∧ s.imap i = -1) ∧ (s.entries p).card < 14 * 128) ∧
    ((creatServer s p type name st).2.Bounded →
      ((creatServer s p type name st).1 = 0 →
        (((creatServer s p type name st).2.inode p).size = (s.inode p).size + 4096 ↔ s.Full p)) ∧
      ((creatServer s p type name st).1 ≠ 0 ∨ ¬ s.Full p →
        ((creatServer s p type name st).2.inode p).size = (s.inode p).size)) := by
  have h := WF.run hrun (format_spec stack).1
  have hpt : s.tree p = some (.dir (dirSlots s.file (s.inode p))) := by
    rw [tree_of_allocated hp, nodeOf, if_pos hdir]
  have hmiss' : lookupSlots (dirSlots s.file (s.inode p)) name = -1 := by
    rw [h.lookup_dir hp, Fs.lookup, hpt] at hmiss
    exact hmiss
  have hiff : (creatServer s p type name st).1 = 0 ↔
      ∃ slots', s.tree.Enters p name (dirSlots s.file (s.inode p)) slots' := by
    rw [h.creat_ret (.inr hp), Fs.creat_eq_zero_iff hpt hmiss' htype]
  refine ⟨?_, fun hb => ?_⟩
  · have hnumber : s.tree.freeInum ≠ -1 ↔ ∃ i, InRange i ∧ s.imap i = -1 := by
      simp only [Fs.freeInum_ne_iff, tree_eq_none_iff]
    rw [hiff, ← hnumber, h.room_iff hp hdir, ← @addEntry_isSome_iff name _ s.tree.freeInum,
       Option.isSome_iff_exists]
    constructor
    · rintro ⟨slots', hent⟩
      exact ⟨hent.free, slots', hent.add⟩
    · rintro ⟨hfree, slots', hadd⟩
      exact ⟨slots', hpt, hmiss', hfree, hadd⟩
  · by_cases hret : (creatServer s p type name st).1 = 0
    · obtain ⟨slots', hent⟩ := hiff.mp hret
      obtain ⟨_, hkept, hgrown⟩ := h.creat_parent hp hdir hent htype rfl hb
      refine ⟨fun _ => ?_, ?_⟩
      · by_cases hfull : s.Full p
        · obtain ⟨k, _, hinode⟩ := hgrown hfull
          refine iff_of_true ?_ hfull
          rw [hinode]
          rfl
        · refine iff_of_false ?_ hfull
          rw [hkept hfull]
          intro hc
          simp at hc
      · rintro (hc | hroom)
        · exact absurd hret hc
        · rw [hkept hroom]
    · refine ⟨fun hc => absurd hc hret, fun _ => ?_⟩
      have haddr : Request.Addressed s (.creat p type name) := .inr hp
      rcases h.creatServer_cases st haddr with
        ⟨ret, q, heq, _, _⟩ | ⟨_, _, _, _, hr⟩
      · rw [heq, seek_inode]
      · have hknown : ¬ UnknownType type := fun hc => (not_or.mpr hc) htype
        rw [hr.eq, creatNode_fst, if_neg hknown] at hret
        exact absurd rfl hret

theorem creat_room_first :
    (creatServer (format (default : Stack).direct) 0 mfsRegularFile ⟨[97], by decide, by decide⟩
      default).1 = 0 := by
  obtain ⟨hwf, htree, _⟩ := format_spec (default : Stack).direct
  have hroot : (format (default : Stack).direct).tree.IsDir 0 := by
    rw [htree]
    exact ⟨_, rfl⟩
  obtain ⟨hp, hdir⟩ := isDir_iff.mp hroot
  have hmiss : (lookupServer (format (default : Stack).direct) 0 ⟨[97], by decide, by decide⟩
      default).1 = -1 := by
    rw [hwf.lookup_dir hp, htree]
    decide +kernel
  refine (creat_room (Run.nil _) hp hdir (.inr rfl) hmiss).1.mpr ⟨⟨1, by decide, ?_⟩, ?_⟩
  · rw [← tree_eq_none_iff, htree]
    rfl
  · refine (hwf.room_iff hp hdir).mpr (.inr ?_)
    have hnode := tree_of_allocated hp
    rw [nodeOf, if_pos hdir, htree] at hnode
    have hslots : dirSlots (format (default : Stack).direct).file
        ((format (default : Stack).direct).inode 0) = newDir 0 0 := by
      have hinit : Fs.init 0 = some (.dir (newDir 0 0)) := rfl
      rw [hinit, Option.some.injEq, Node.dir.injEq] at hnode
      exact hnode.symm
    rw [hslots]
    simp [newDir]

end Decide

/-! ## The effect -/

/-- What a successful creation of `name` in `p` should do: `i` is the least number that was free, it is
now a new file or directory, `p` has one more entry, and everything else is as it was. -/
structure Created (s t : Server) (p type : Int32) (name : Name) (i : Int32) : Prop where
  inRange : InRange i
  free : ¬ s.Allocated i
  least : ∀ j, InRange j → j < i → s.Allocated j
  alloc : t.Allocated i
  imap : ∀ j, j ≠ i → t.imap j = s.imap j
  entry : ∃ k e, (∀ n j, ¬ s.HasEntry p k e n j) ∧ ∀ k' e' n j, t.HasEntry p k' e' n j ↔
    (k' = k ∧ e' = e ∧ n = name.bytes ∧ j = i) ∨ s.HasEntry p k' e' n j
  found : ∀ st, (lookupServer t p name st).1 = i
  stat : ∀ m st, (statServer t i m st).1 = 0 ∧
    (statServer t i m st).2.1 = ⟨type, if type = mfsDirectory then 4096 else 0⟩
  dots : type = mfsDirectory → ∀ k e n j, t.HasEntry i k e n j ↔ k.val = 0 ∧
    ((e.val = 0 ∧ n = Name.dot.bytes ∧ j = i) ∨ (e.val = 1 ∧ n = Name.dotdot.bytes ∧ j = p))
  others : ∀ q, q ≠ p → q ≠ i → ∀ k e n j, t.HasEntry q k e n j ↔ s.HasEntry q k e n j
  inodes : ∀ j, s.Allocated j → j ≠ p → t.inode j = s.inode j
  parent : ¬ s.Full p → t.inode p = s.inode p
  grown : s.Full p → ∃ k : Fin 14, k.val = (s.inode p).nblocks ∧
    t.inode p = (s.inode p).extended k s.nextBlock
  files : ∀ j, s.Allocated j → (s.inode j).type = mfsRegularFile → ∀ k, (s.inode j).dpUsed k = 1 →
    dataAt t.file ((s.inode j).dpointers k) = dataAt s.file ((s.inode j).dpointers k)

section Effect

variable {s : Server} {p type : Int32} {name : Name} {slots slots' : List DirSlot} {i : Int32}

/-- A search that fails leaves no entry of that name in front of the first free slot. -/
theorem not_live_before {a : Nat} (hmiss : SlotTable.lookup marker slots name.bytes = none)
    (hbefore : ∀ b < a, ∃ n j, SlotTable.Live slots b n j) {b : Nat} (hb : b < a) {j : Int32} :
    ¬ SlotTable.Live slots b name.bytes j := by
  intro hlive
  have hex : ∃ b j, SlotTable.Live slots b name.bytes j := ⟨b, j, hlive⟩
  classical
  obtain ⟨j', hfirst⟩ := Nat.find_spec hex
  have hle : Nat.find hex ≤ b := Nat.find_min' hex ⟨j, hlive⟩
  have hfound : SlotTable.lookup marker slots name.bytes = some j' := SlotTable.lookup_of_live hfirst
    (fun c hc k hk => Nat.find_min hex hc ⟨k, hk⟩) fun _ c hc => hbefore c (by omega)
  rw [hmiss] at hfound
  exact absurd hfound (by simp)

/-- The new entry is the first one of its name. -/
theorem lookup_addEntry (hmiss : SlotTable.lookup marker slots name.bytes = none)
    (hadd : addEntry slots name i = some slots') : lookupSlots slots' name = i := by
  obtain ⟨a, hbefore, hfree, hlive⟩ := live_addEntry hadd
  have hlook : SlotTable.lookup marker slots' name.bytes = some i := by
    refine SlotTable.lookup_of_live ((hlive a _ _).mpr (.inl ⟨rfl, rfl, rfl⟩)) ?_ ?_
    · intro b hb j hold
      rcases (hlive b _ _).mp hold with ⟨rfl, _⟩ | hold
      · exact Nat.lt_irrefl _ hb
      · exact not_live_before hmiss hbefore hb hold
    · intro _ b hb
      obtain ⟨n, j, hb'⟩ := hbefore b hb
      exact ⟨n, j, (hlive b n j).mpr (.inr hb')⟩
  rw [lookupSlots, hlook, Option.getD_some]

/-- Blocks of the other inodes keep their bytes, and so do their inodes. -/
theorem Refines.frame {r : Request} {ret : Int32} {t : Server} (href : Refines s r ret t) (h : WF s)
    {j : Int32} (hj : s.Allocated j) (hne : j ≠ r.inum) (himap : t.imap j = s.imap j) :
    t.inode j = s.inode j ∧ ∀ k, (s.inode j).dpUsed k = 1 →
      SameBlock t.file s.file ((s.inode j).dpointers k) := by
  obtain ⟨ws, q, hfile, hws⟩ := href.writes
  have hsame : ∀ x, s.Owns j x → SameBlock t.file s.file x := by
    intro x hx
    rw [hfile]
    exact h.sameBlock_of_writeOK hws hne hx
  refine ⟨?_, fun k hk => hsame _ (NodeWF.owns_block hj hk)⟩
  rw [Server.inode, himap]
  exact (hsame _ (NodeWF.owns_inode hj)).inodeAt

/-- **Effect.**  In every state of a run from a fresh image, a creation under a new name that is
answered with 0 gives the least free number to a new inode, enters it, and changes nothing else. -/
theorem creat_effect {stack : Directory} {xs : List Turn}
    (hrun : Run turn Admitted (format stack) xs s) (hp : s.Allocated p)
    (hdir : (s.inode p).type = mfsDirectory) (htype : type = mfsDirectory ∨ type = mfsRegularFile)
    {st : Stack} (hmiss : (lookupServer s p name st).1 = -1)
    (hb : (creatServer s p type name st).2.Bounded) (hret : (creatServer s p type name st).1 = 0) :
    ∃ i, Created s (creatServer s p type name st).2 p type name i := by
  obtain ⟨h, hreg⟩ := run_regular (WF.run_tolerated_of_admitted hrun (format_spec stack).1)
  have hpt : s.tree p = some (.dir (dirSlots s.file (s.inode p))) := by
    rw [tree_of_allocated hp, nodeOf, if_pos hdir]
  have hmiss' : lookupSlots (dirSlots s.file (s.inode p)) name = -1 := by
    rw [h.lookup_dir hp, Fs.lookup, hpt] at hmiss
    exact hmiss
  obtain ⟨slots', hent⟩ : ∃ slots', s.tree.Enters p name (dirSlots s.file (s.inode p)) slots' := by
    rw [h.creat_ret (.inr hp), Fs.creat_eq_zero_iff hpt hmiss' htype] at hret
    exact hret
  have href : Refines s (.creat p type name) (creatServer s p type name st).1
      (creatServer s p type name st).2 := h.creat_refines (.inr hp) hb
  obtain ⟨himap, hkept, hgrown⟩ := h.creat_parent hp hdir hent htype rfl hb
  generalize (creatServer s p type name st).2 = t at *
  have hknown : ¬ UnknownType type := fun hc => (not_or.mpr hc) htype
  have htree : t.tree = Function.update (Function.update s.tree p (some (.dir slots')))
      s.tree.freeInum (some (Fs.newNode type s.tree.freeInum p)) := by
    rw [href.tree_eq, Fs.exec, hent.creat_eq, if_neg hknown]
  have hnew : t.tree s.tree.freeInum = some (Fs.newNode type s.tree.freeInum p) := by
    rw [htree, Function.update_self]
  have halloc : t.Allocated s.tree.freeInum := by
    rw [allocated_iff, hnew]
    exact Option.some_ne_none _
  obtain ⟨a, hbefore, hfree, hstore⟩ := hent.entry_store
  have hentry : ∀ d b n j, t.tree.Entry d b n j ↔
      (type = mfsDirectory ∧ d = s.tree.freeInum ∧
        ((b = 0 ∧ n = Name.dot.bytes ∧ j = s.tree.freeInum) ∨
          (b = 1 ∧ n = Name.dotdot.bytes ∧ j = p))) ∨
      (d = p ∧ b = a ∧ n = name.bytes ∧ j = s.tree.freeInum) ∨ s.tree.Entry d b n j := by
    intro d b n j
    rw [htree, hent.entry_create, hstore]
  have hip : s.tree.freeInum ≠ p := hent.inum_ne
  have hinum := Fs.freeInum_spec hent.free
  obtain ⟨k, e, hplace, hnewent⟩ := href.wf.exists_hasEntry
    ((hentry p a name.bytes s.tree.freeInum).mpr (.inr (.inl ⟨rfl, rfl, rfl, rfl⟩)))
  refine ⟨s.tree.freeInum, ?_⟩
  constructor
  case inRange => exact hinum.1
  case free =>
    rw [allocated_iff, not_not]
    exact hinum.2
  case least =>
    intro j hj hlt
    rcases s.tree.freeInum_least with ⟨hfull, _⟩ | ⟨_, _, hleast⟩
    · exact absurd hfull hent.free
    · exact allocated_iff.mpr (hleast j hj hlt)
  case alloc => exact halloc
  case imap => exact himap
  case entry =>
    refine ⟨k, e, ?_, ?_⟩
    · intro n j hold
      rw [h.hasEntry_iff, ← hplace] at hold
      exact hfree n j hold
    · intro k' e' n j
      rw [href.wf.hasEntry_iff, hentry, h.hasEntry_iff]
      have hplace' : 128 * k'.val + e'.val = a ↔ k' = k ∧ e' = e := by
        rw [hplace, Fin.ext_iff, Fin.ext_iff]
        omega
      simp only [hip.symm, false_and, and_false, false_or, true_and, hplace', and_assoc]
  case found =>
    intro st'
    have hpa : t.tree p = some (.dir slots') := by
      rw [htree, Function.update_of_ne hip.symm, Function.update_self]
    have hpt' : t.Allocated p := by
      rw [allocated_iff, hpa]
      exact Option.some_ne_none _
    rw [href.wf.lookup_dir hpt', Fs.lookup, hpa]
    exact lookup_addEntry (hreg.lookup_none hpt hmiss') hent.add
  case stat =>
    intro m st'
    have hstat := href.wf.stat_eq halloc
    rw [href.wf.statServer_eq halloc]
    rw [Fs.stat, hnew] at hstat
    refine ⟨rfl, ?_⟩
    rcases htype with rfl | rfl
    · simp only [Fs.newNode, if_true, Option.some.injEq, newDir, List.length_cons,
        List.length_replicate] at hstat
      rw [if_pos rfl, ← hstat]
      rfl
    · have hne : ¬ mfsRegularFile = mfsDirectory := by decide
      simp only [Fs.newNode, if_neg hne, Option.some.injEq] at hstat
      rw [if_neg hne, ← hstat]
  case dots =>
    intro hd k' e' n j
    have hlt := k'.isLt
    have hlt' := e'.isLt
    have hnone : ¬ s.tree.Entry s.tree.freeInum (128 * k'.val + e'.val) n j :=
      Fs.not_entry_of_none hinum.2
    have hzero : 128 * k'.val + e'.val = 0 ↔ k'.val = 0 ∧ e'.val = 0 := by omega
    have hone : 128 * k'.val + e'.val = 1 ↔ k'.val = 0 ∧ e'.val = 1 := by omega
    rw [href.wf.hasEntry_iff, hentry]
    simp only [hd, hip, hnone, hzero, hone, true_and, false_and, or_false, and_assoc, ← and_or_left]
  case others =>
    intro q hqp hqi k' e' n j
    rw [href.wf.hasEntry_iff, hentry, h.hasEntry_iff]
    simp only [hqp, hqi, false_and, and_false, false_or]
  case inodes =>
    intro j hj hjp
    have hji : j ≠ s.tree.freeInum := by
      rintro rfl
      exact allocated_iff.mp hj hinum.2
    exact (href.frame h hj hjp (himap j hji)).1
  case parent => exact hkept
  case grown => exact hgrown
  case files =>
    intro j hj hfile k' hk'
    have hji : j ≠ s.tree.freeInum := by
      rintro rfl
      exact allocated_iff.mp hj hinum.2
    have hjp : j ≠ p := by
      rintro rfl
      rw [hdir] at hfile
      exact absurd hfile (by decide)
    exact ((href.frame h hj hjp (himap j hji)).2 k' hk').dataAt

theorem creat_effect_first :
    ∃ i, Created (format (default : Stack).direct)
      (creatServer (format (default : Stack).direct) 0 mfsDirectory ⟨[97], by decide, by decide⟩
        default).2 0 mfsDirectory ⟨[97], by decide, by decide⟩ i := by
  obtain ⟨hwf, htree, _⟩ := format_spec (default : Stack).direct
  have hroot : (format (default : Stack).direct).tree.IsDir 0 := by
    rw [htree]
    exact ⟨_, rfl⟩
  obtain ⟨hp, hdir⟩ := isDir_iff.mp hroot
  have hmiss : (lookupServer (format (default : Stack).direct) 0 ⟨[97], by decide, by decide⟩
      default).1 = -1 := by
    rw [hwf.lookup_dir hp, htree]
    decide +kernel
  have hret : (creatServer (format (default : Stack).direct) 0 mfsDirectory
      ⟨[97], by decide, by decide⟩ default).1 = 0 := by
    rw [hwf.creat_ret (.inr hp), htree]
    decide +kernel
  obtain ⟨s, hrun, _⟩ := run_of_requests (default : Stack).direct
    [(.creat 0 mfsDirectory ⟨[97], by decide, by decide⟩, default)] (by decide +kernel) (by decide)
  cases hrun with
  | cons hok _ => exact creat_effect (Run.nil _) hp hdir (.inl rfl) hmiss hok.2 hret

end Effect

end Linux
end LfsXv6
