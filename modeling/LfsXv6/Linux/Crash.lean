import LfsXv6.Linux.Entries
import LfsXv6.Linux.Restart

/-!
# Crash — restarting in the middle of a request

A crash keeps some of the write calls of the request that was being served, in program order, and
`start_server` then loads what they left.  `write_server` and `creat_server` update inodes in place
and `imap` before the stored `next_block`, so the image is always that of a well-formed server, but
the `next_block` that is loaded may lie behind the blocks in use: by those that the interrupted
request has taken, and by no others.
-/

namespace LfsXv6
namespace Linux

open Lib

/-- The write calls that a request issues on the image, in program order. -/
def issued (s : Server) (r : Request) (st : Stack) : List WriteCall :=
  (serve s r st).2.file.trace.drop s.file.trace.length

/-- The server that `start_server` sets up when only the first `n` write calls reached the image. -/
def crash (s : Server) (r : Request) (st : Stack) (n : Nat) : Server :=
  reload (s.file.pwrites ((issued s r st).take n))

/-- Every block in use lies below `next_block` and is owned by one inode only. -/
def CrashSafe (u : Server) : Prop :=
  ∀ i x, u.Owns i x → x.toInt < u.nextBlock.toInt ∧ ∀ j, u.Owns j x → j = i

/-! ## Images of well-formed servers -/

/-- The image of `v` loads the `imap` of `v`, and as `next_block` one of `lo` and `hi`. -/
structure Snapshot (lo hi : Int32) (v : Server) : Prop where
  wf : WF v
  le : v.nextBlock.toInt ≤ hi.toInt
  stored : ∃ c, (c = lo ∨ c = hi) ∧ InSync { v with nextBlock := c }

/-- The image of some such server. -/
def Survives (lo hi : Int32) (f : File) : Prop := ∃ v, v.file = f ∧ Snapshot lo hi v

section Steps

variable {lo hi i : Int32} {v u : Server} {l : List WriteCall} {w : WriteCall}

/-- Writes in the checkpoint region and past the end of the log leave every inode alone. -/
theorem WF.idle (h : WF v) (hl : ∀ w ∈ l, w.off + w.len ≤ crSize * 4096 ∨ PastLog v w) :
    WF { v with file := v.file.pwrites l } := by
  have hout : ¬ v.Allocated (-1) := fun ha => absurd (h.inRange _ ha) (by decide)
  refine (h.update (u := { v with file := v.file.pwrites l }) (t := -1) (l := l)
    (p := (v.file.pwrites l).pos) rfl ?_ (fun _ _ => rfl)
    (Int.le_refl _) h.bounded (fun ha => absurd ha hout) (fun x hx => absurd hx.1 hout)).1
  intro w hw
  rcases hl w hw with hcr | hpast
  · exact Or.inl hcr
  · exact hpast.writeOK _

/-- Writes in the log, as long as `imap` stays. -/
theorem Snapshot.log (h : Snapshot lo hi v) (hu : WF u) (hle : u.nextBlock.toInt ≤ hi.toInt)
    (himap : u.imap = v.imap) (hfile : u.file = v.file.pwrites l) (hl : ∀ w ∈ l, InLog w) :
    Snapshot lo hi u := by
  obtain ⟨c, hc, hsync⟩ := h.stored
  refine ⟨hu, hle, c, hc, ?_⟩
  refine hsync.log (l := l) (p := u.file.pos) ?_ hl (fun j _ => congrFun himap j) rfl
  show u.file = (v.file.pwrites l).seekTo u.file.pos
  rw [← hfile]
  rfl

/-- A write past the end of the log. -/
theorem Snapshot.fresh (h : Snapshot lo hi v) (hw : PastLog v w) :
    Snapshot lo hi { v with file := v.file.pwrite w } := by
  refine h.log (l := [w]) (h.wf.idle (l := [w]) ?_) h.le rfl rfl ?_
  · intro x hx
    exact Or.inr (List.mem_singleton.mp hx ▸ hw)
  · intro x hx
    exact h.wf.inLog_past (List.mem_singleton.mp hx ▸ hw)

/-- A list of writes past the end of the log. -/
theorem Snapshot.past (h : Snapshot lo hi v) (hl : ∀ w ∈ l, PastLog v w) :
    File.Throughout (Survives lo hi) v.file l ∧
      Snapshot lo hi { v with file := v.file.pwrites l } := by
  induction l generalizing v with
  | nil => exact ⟨File.throughout_nil ⟨v, rfl, h⟩, h⟩
  | cons w l ih =>
      obtain ⟨hall, hend⟩ := ih (h.fresh (hl w List.mem_cons_self))
        fun x hx => hl x (List.mem_cons_of_mem _ hx)
      exact ⟨File.throughout_cons ⟨v, rfl, h⟩ hall, hend⟩

/-- The cell of `imap[i]` is written once the inode `i` is complete. -/
theorem Snapshot.slot (h : Snapshot lo hi v) (hu : WF u) (hle : u.nextBlock.toInt ≤ hi.toInt)
    (hr : InRange i) (himap : ∀ j, j ≠ i → u.imap j = v.imap j) (hfile : u.file = v.file.pwrites l)
    (hl : ∀ w ∈ l, InLog w) :
    Snapshot lo hi { u with file := u.file.pwrite ⟨4 * blk i, 4, intMem (u.imap i)⟩ } := by
  obtain ⟨c, hc, hsync⟩ := h.stored
  have hblk := hr.blk_lt
  refine ⟨hu.idle (l := [_]) ?_, hle, c, hc, ?_⟩
  · intro x hx
    rw [List.mem_singleton.mp hx]
    exact Or.inl (by simp only [crSize]; omega)
  · refine hsync.slot (u := { u with nextBlock := c }) (l := l) (p := u.file.pos) ?_ hl hr himap rfl
    show u.file = (v.file.pwrites l).seekTo u.file.pos
    rw [← hfile]
    rfl

/-- The cell of `next_block` is written last. -/
theorem Snapshot.commit (h : Snapshot lo hi v) :
    Snapshot lo hi { v with file := v.file.pwrite ⟨16384, 4, intMem hi⟩ } := by
  obtain ⟨c, _, hsync⟩ := h.stored
  refine ⟨h.wf.idle (l := [_]) ?_, h.le, hi, Or.inr rfl, hsync.commit hi⟩
  intro x hx
  rw [List.mem_singleton.mp hx]
  exact Or.inl (by simp only [crSize]; omega)

/-- `update_CR(i)`, from an image that does not know of the inode `i` yet. -/
theorem Snapshot.checkpoint (h : Snapshot lo hi v) (hbefore : Survives lo hi u.file) (hu : WF u)
    (hnext : u.nextBlock = hi) (hr : InRange i) (himap : ∀ j, j ≠ i → u.imap j = v.imap j)
    (hfile : u.file = v.file.pwrites l) (hl : ∀ w ∈ l, InLog w) :
    File.Throughout (Survives lo hi) u.file (crWrites u i) := by
  subst hnext
  have hslot := h.slot hu (Int.le_refl _) hr himap hfile hl
  refine File.throughout_cons hbefore (File.throughout_cons ⟨_, rfl, hslot⟩ ?_)
  exact File.throughout_nil ⟨_, rfl, hslot.commit⟩

end Steps

/-! ## The write calls of each request -/

/-- However many of the write calls of a request that leads from `s` to `t` reach the image, it
survives. -/
def Contained (s t : Server) : Prop :=
  ∃ ws q, t.file = (s.file.pwrites ws).seekTo q ∧
    File.Throughout (Survives s.nextBlock t.nextBlock) s.file ws

section Requests

variable {s : Server} {p i : Int32} {name : Name} {st : Stack}

theorem WF.snapshot (h : WF s) (hs : InSync s) {hi : Int32} (hle : s.nextBlock.toInt ≤ hi.toInt) :
    Snapshot s.nextBlock hi s := ⟨h, hle, s.nextBlock, Or.inl rfl, hs⟩

theorem WF.contained_seek (h : WF s) (hs : InSync s) (q : Nat) : Contained s (s.seek q) :=
  ⟨[], q, rfl, File.throughout_nil ⟨s, rfl, h.snapshot hs (Int.le_refl _)⟩⟩

theorem WF.pastLog_next (h : WF s) {len : Nat} (hlen : len ≤ 4096) (m : Mem) :
    PastLog s ⟨blk s.nextBlock * 4096, len, m⟩ := by
  have hnb := blk_eq h.fits_next.1
  exact ⟨_, rfl, hlen, by omega⟩

theorem WF.contained_write (h : WF s) (hs : InSync s) (ha : s.Allocated i) {k : Fin 14}
    {buffer : Block} (hwf : WF (afterWrite s i k buffer)) :
    Contained s (updateCR (afterWrite s i k buffer) i) := by
  have hr := h.inRange i ha
  have hnext : (afterWrite s i k buffer).nextBlock.toInt = s.nextBlock.toInt + 1 :=
    toInt_succ h.fits_next
  have hbase : Snapshot s.nextBlock (afterWrite s i k buffer).nextBlock s :=
    h.snapshot hs (by omega)
  have hlog : ∀ w ∈ writeCalls s i k buffer, InLog w := by
    intro w hw
    simp only [writeCalls, List.mem_cons, List.not_mem_nil, or_false] at hw
    rcases hw with rfl | rfl
    · exact h.inLog_past (h.pastLog_next (Nat.le_refl _) _)
    · exact h.inLog_owned (NodeWF.owns_inode ha) _ _
  -- the inode in place points to the new block before `next_block` is stored
  have hinode : Snapshot s.nextBlock (afterWrite s i k buffer).nextBlock (afterWrite s i k buffer) :=
    hbase.log hwf (Int.le_refl _) rfl rfl hlog
  refine ⟨writeCalls s i k buffer ++ crWrites (afterWrite s i k buffer) i, 16388, ?_, ?_⟩
  · rw [updateCR_eq hr, File.pwrites_append]
    rfl
  · refine File.throughout_append ?_ ?_
    · have hdata := hbase.fresh (h.pastLog_next (Nat.le_refl _) buffer.mem)
      refine File.throughout_cons ⟨s, rfl, hbase⟩ (File.throughout_cons ⟨_, rfl, hdata⟩ ?_)
      exact File.throughout_nil ⟨_, rfl, hinode⟩
    · exact hinode.checkpoint (l := []) ⟨_, rfl, hinode⟩ hwf rfl hr (fun _ _ => rfl) rfl (by simp)

/-- The entry goes to a block that the directory has: the inode is rewritten as it was, then the
block. -/
theorem WF.contained_entry (h : WF s) (ha : s.Allocated p) (hdir : (s.inode p).type = mfsDirectory)
    {inum : Int32} (hr : InRange inum) {k : Fin 14} {e : Fin 128}
    (hfind : findSlot s.file (s.inode p) (firstBlocks (s.inode p).nblocks) = some (k, e))
    {lo hi : Int32} (hstart : Snapshot lo hi s) (past : Mem) :
    ∃ ws, (storeEntry s p inum name k e past).file = s.file.pwrites ws ∧
      File.Throughout (Survives lo hi) s.file ws ∧
      Snapshot lo hi (storeEntry s p inum name k e past) := by
  have hshape := (h.node p ha).dir hdir
  have hk : (s.inode p).dpUsed k = 1 :=
    (hshape.used_iff k).mpr (mem_firstBlocks.mp (mem_of_findSlot hfind).1)
  obtain ⟨slots, _, hstored⟩ := h.storeEntry_stored name ha hdir hr hfind past
  have hinode := rewriteInode_inode (s := s) (p := p) past
  have hfirst : Snapshot lo hi (rewriteInode s p past) := by
    refine hstart.log (h.rewriteInode_wf ha past).1 hstart.le rfl
      (l := [⟨blk (s.imap p) * 4096, 4096, parentMem (s.inode p) past⟩]) rfl ?_
    intro w hw
    rw [List.mem_singleton.mp hw]
    exact h.inLog_owned (NodeWF.owns_inode ha) _ _
  have hfile : (storeEntry s p inum name k e past).file =
      (rewriteInode s p past).file.pwrite ⟨blk ((s.inode p).dpointers k) * 4096, 4096,
        ((dirAt s.file ((s.inode p).dpointers k)).setEntry e inum name).encode⟩ := by
    rw [storeEntry, putBlock, hinode]
  have hsecond : Snapshot lo hi (storeEntry s p inum name k e past) := by
    refine hfirst.log hstored.wf hstart.le rfl (l := [_]) hfile ?_
    intro w hw
    rw [List.mem_singleton.mp hw]
    exact h.inLog_owned (NodeWF.owns_block ha hk) _ _
  refine ⟨[⟨blk (s.imap p) * 4096, 4096, parentMem (s.inode p) past⟩,
    ⟨blk ((s.inode p).dpointers k) * 4096, 4096,
      ((dirAt s.file ((s.inode p).dpointers k)).setEntry e inum name).encode⟩], hfile, ?_, hsecond⟩
  refine File.throughout_cons ⟨s, rfl, hstart⟩ (File.throughout_cons ⟨_, rfl, hfirst⟩ ?_)
  exact File.throughout_nil ⟨_, hfile, hsecond⟩

/-- The entry goes to a new block: the block, the inode, the block with the entry. -/
theorem WF.contained_extended (h : WF s) (ha : s.Allocated p)
    (hdir : (s.inode p).type = mfsDirectory) {inum : Int32} (hr : InRange inum) {k : Fin 14}
    (hk : k.val = (s.inode p).nblocks) {past : Mem}
    (hb : (storeExtended s p inum name k (extensionBlock inum st k) past).Bounded) {lo hi : Int32}
    (hle : (storeExtended s p inum name k (extensionBlock inum st k) past).nextBlock.toInt ≤ hi.toInt)
    (hstart : Snapshot lo hi s) :
    ∃ ws, (storeExtended s p inum name k (extensionBlock inum st k) past).file = s.file.pwrites ws ∧
      File.Throughout (Survives lo hi) s.file ws ∧
      Snapshot lo hi (storeExtended s p inum name k (extensionBlock inum st k) past) := by
  have hnew : ∀ e, (extensionBlock inum st k).SlotOK e := Directory.newDirBlock_false_slotOK
  have hinode := extendDir_inode (s := s) (p := p) k (extensionBlock inum st k) past
  have hstored := h.storeExtended_stored ha hdir hr hk past hb
  have hwf := (h.extendDir_wf (d := extensionBlock inum st k) ha hdir hk hnew
    (show (extendDir s p k _ past).Bounded from hb)).1
  have hblock := hstart.fresh (h.pastLog_next (Nat.le_refl _) (extensionBlock inum st k).encode)
  have hparent : Snapshot lo hi (extendDir s p k (extensionBlock inum st k) past) := by
    refine hstart.log (l := extendCalls s p k (extensionBlock inum st k) past) hwf hle rfl rfl ?_
    exact fun w hw => (h.extendCalls_ok ha w hw).2
  have hptr : ((s.inode p).extended k s.nextBlock).dpointers k = s.nextBlock := by
    rw [extended_dpointers, Function.update_self]
  have hfile : (storeExtended s p inum name k (extensionBlock inum st k) past).file =
      (extendDir s p k (extensionBlock inum st k) past).file.pwrite
        ⟨blk s.nextBlock * 4096, 4096, ((extensionBlock inum st k).setEntry 0 inum name).encode⟩ := by
    rw [storeExtended, putBlock, hinode, hptr]
  have hentry : Snapshot lo hi (storeExtended s p inum name k (extensionBlock inum st k) past) := by
    refine hparent.log hstored.wf hle rfl (l := [_]) hfile ?_
    intro w hw
    rw [List.mem_singleton.mp hw]
    exact h.inLog_past (h.pastLog_next (Nat.le_refl _) _)
  refine ⟨extendCalls s p k (extensionBlock inum st k) past ++ [⟨blk s.nextBlock * 4096, 4096,
    ((extensionBlock inum st k).setEntry 0 inum name).encode⟩], ?_, ?_, hentry⟩
  · rw [File.pwrites_append]
    exact hfile
  · refine File.throughout_append ?_
      (File.throughout_cons ⟨_, rfl, hparent⟩ (File.throughout_nil ⟨_, hfile, hentry⟩))
    refine File.throughout_cons ⟨s, rfl, hstart⟩ (File.throughout_cons ⟨_, rfl, hblock⟩ ?_)
    exact File.throughout_nil ⟨_, rfl, hparent⟩

/-- The entry of a creation is stored. -/
theorem Stores.contained {v : Server} (hst : Stores s p name st v) (h : WF s)
    (hfree : InRange (freeInum s.imap)) (hb : v.Bounded) {lo hi : Int32}
    (hle : v.nextBlock.toInt ≤ hi.toInt) (hstart : Snapshot lo hi s) :
    ∃ ws, v.file = s.file.pwrites ws ∧ File.Throughout (Survives lo hi) s.file ws ∧
      Snapshot lo hi v := by
  cases hst with
  | entry ha hdir hfind => exact h.contained_entry ha hdir hfree hfind hstart _
  | extended ha hdir hk => exact h.contained_extended ha hdir hfree hk hb hle hstart

/-- A new inode past the end of the log, then `update_CR`. -/
theorem Snapshot.contained_alloc {v u : Server} {l ws : List WriteCall} {inum : Int32} (hwf : WF u)
    (hv : Snapshot s.nextBlock u.nextBlock v) (hr : InRange inum)
    (himap : ∀ j, j ≠ inum → u.imap j = v.imap j) (hfile : u.file = v.file.pwrites l)
    (hl : ∀ w ∈ l, PastLog v w) (hbefore : v.file = s.file.pwrites ws)
    (hws : File.Throughout (Survives s.nextBlock u.nextBlock) s.file ws) :
    Contained s (updateCR u inum) := by
  obtain ⟨hall, hend⟩ := hv.past hl
  have hlog : ∀ w ∈ l, InLog w := fun w hw => hv.wf.inLog_past (hl w hw)
  refine ⟨ws ++ (l ++ crWrites u inum), 16388, ?_, ?_⟩
  · rw [updateCR_eq hr, File.pwrites_append, File.pwrites_append, ← hbefore, ← hfile]
    rfl
  · refine File.throughout_append hws ?_
    rw [← hbefore]
    refine File.throughout_append hall ?_
    rw [← hfile]
    exact hv.checkpoint ⟨_, hfile.symm, hend⟩ hwf rfl hr himap hfile hlog

theorem WF.contained_creat (h : WF s) (hs : InSync s) {type : Int32}
    (ha : Request.Addressed s (.creat p type name))
    (hb : (creatServer s p type name st).2.Bounded) :
    Contained s (creatServer s p type name st).2 := by
  rcases h.creatServer_cases st ha with ⟨ret, q, heq, _, _⟩ | ⟨slots, slots', v, c, hreach⟩
  · rw [heq]
    exact h.contained_seek hs q
  rw [hreach.eq] at hb ⊢
  have hnext := hreach.next
  obtain ⟨h0, h1⟩ := h.fits_next
  have hc : c ≤ 1 := by
    rw [hreach.taken]
    split <;> omega
  obtain ⟨hbv, hfits⟩ := bounded_of_creatNode (by omega) (by omega) hb
  have hstored := hreach.stored hbv
  have hlast : (creatNode p type (freeInum s.imap) st v).2.nextBlock.toInt = v.nextBlock.toInt +
      ((if type = mfsDirectory then 2 else if type = mfsRegularFile then 1 else 0 : Nat) : Int) :=
    creatNode_next (by omega) (by omega)
  have hstart : Snapshot s.nextBlock (creatNode p type (freeInum s.imap) st v).2.nextBlock s :=
    h.snapshot hs (by omega)
  obtain ⟨ws, hfile, hws, hv⟩ := hreach.stores.contained h hreach.free hbv (by omega) hstart
  by_cases hd : type = mfsDirectory
  · subst hd
    have heq : creatNode p mfsDirectory (freeInum s.imap) st v =
        (0, updateCR (allocDir v (freeInum s.imap)
          (newDirBlock true (freeInum s.imap) p st.firstBlock)) (freeInum s.imap)) :=
      creatNode_dir hstored.wf.fits_next (hfits rfl)
    rw [heq] at hb hws hv ⊢
    have hwf := (hstored.wf.allocDir_wf (d := newDirBlock true (freeInum s.imap) p st.firstBlock)
      hreach.free (Directory.newDirBlock_true_slotOK hreach.free hreach.inRange) hb).1
    exact hv.contained_alloc hwf hreach.free (fun j hj => Function.update_of_ne hj _ _) rfl
      hstored.wf.allocDirCalls_past hfile hws
  by_cases hf : type = mfsRegularFile
  · subst hf
    have heq : creatNode p mfsRegularFile (freeInum s.imap) st v =
        (0, updateCR (allocFile v (freeInum s.imap)) (freeInum s.imap)) :=
      creatNode_file hstored.wf.fits_next
    rw [heq] at hb hws hv ⊢
    have hwf := (hstored.wf.allocFile_wf hreach.free hb).1
    exact hv.contained_alloc hwf hreach.free (fun j hj => Function.update_of_ne hj _ _) rfl
      hstored.wf.allocFileCalls_past hfile hws
  · rw [creatNode_bad hd hf] at hws ⊢
    refine ⟨ws, v.file.pos, ?_, hws⟩
    rw [← hfile]
    rfl

/-- Any number of writes of the first block of a directory, each with some entries cleared. -/
theorem WF.clear_wf (h : WF s) (ha : s.Allocated p) (hdir : (s.inode p).type = mfsDirectory)
    {l : List WriteCall} (hl : ∀ w ∈ l, ∃ is, w = ⟨blk ((s.inode p).dpointers 0) * 4096, 4096,
      ((dirAt s.file ((s.inode p).dpointers 0)).clearNamed name is).encode⟩) :
    WF { s with file := s.file.pwrites l } := by
  have hshape := (h.node p ha).dir hdir
  have hused : (s.inode p).dpUsed 0 = 1 := (hshape.used_iff 0).mpr hshape.nblocks_pos
  refine (h.replace (u := { s with file := s.file.pwrites l }) (k := 0)
    (q := (s.file.pwrites l).pos) ha hdir hused rfl rfl rfl ?_ rfl ?_).1
  · intro w hw
    obtain ⟨is, rfl⟩ := hl w hw
    exact ⟨rfl, Nat.le_refl _⟩
  · -- the last write decides what the block holds
    rcases List.eq_nil_or_concat l with rfl | ⟨l', w, rfl⟩
    · exact hshape.slot_ok 0 hused
    · obtain ⟨is, rfl⟩ := hl w (by simp)
      rw [List.concat_eq_append, File.pwrites_append, File.pwrites_cons, File.pwrites_nil,
        dirAt_pwrite_self]
      exact Directory.SlotOK.clearNamed name is (hshape.slot_ok 0 hused)

theorem Snapshot.seek {lo hi : Int32} {v : Server} (h : Snapshot lo hi v) (q : Nat) :
    Snapshot lo hi (v.seek q) := by
  obtain ⟨c, hc, hsync⟩ := h.stored
  refine ⟨h.wf.seek q, h.le, c, hc, ?_⟩
  exact hsync.log (u := { v.seek q with nextBlock := c }) (l := []) (p := q) rfl (by simp)
    (fun _ _ => rfl) rfl

theorem WF.contained_unlink (h : WF s) (hs : InSync s) {t : Server} (ht : Clears s p name t) :
    Contained s t := by
  obtain ⟨i, ws, q, hr, ha, hdir, rfl, hws⟩ := ht
  have hshape := (h.node p ha).dir hdir
  have hused : (s.inode p).dpUsed 0 = 1 := (hshape.used_iff 0).mpr hshape.nblocks_pos
  have hbase : Snapshot s.nextBlock s.nextBlock s := h.snapshot hs (Int.le_refl _)
  have hprefix : ∀ l, (∀ w ∈ l, w ∈ ws) →
      Snapshot s.nextBlock s.nextBlock { s with file := s.file.pwrites l } := by
    intro l hl
    refine hbase.log (h.clear_wf ha hdir fun w hw => hws w (hl w hw)) (Int.le_refl _) rfl rfl ?_
    intro w hw
    obtain ⟨is, rfl⟩ := hws w (hl w hw)
    exact h.inLog_owned (NodeWF.owns_block ha hused) _ _
  have hend := hprefix ws fun _ hw => hw
  have hwf : WF (freeNode { s with file := (s.file.pwrites ws).seekTo q } i) :=
    ((hend.seek q).wf.freeNode_wf i).1
  refine ⟨ws ++ crWrites (freeNode { s with file := (s.file.pwrites ws).seekTo q } i) i, 16388, ?_, ?_⟩
  · rw [updateCR_eq hr, File.pwrites_append]
    rfl
  · refine File.throughout_append ?_ (File.throughout_of_seekTo (q := q) ⟨_, rfl, hend⟩ ?_)
    · exact fun n => ⟨_, rfl, hprefix _ fun _ hw => List.mem_of_mem_take hw⟩
    · have hbefore : Survives s.nextBlock s.nextBlock ((s.file.pwrites ws).seekTo q) :=
        ⟨_, rfl, hend.seek q⟩
      exact (hend.seek q).checkpoint
        (u := freeNode { s with file := (s.file.pwrites ws).seekTo q } i) (l := []) hbefore hwf rfl hr
        (fun j hj => Function.update_of_ne hj _ _) rfl (by simp)

/-- Every request, on a number that is out of range or allocated. -/
theorem WF.contained (h : WF s) (hs : InSync s) {r : Request} (hok : Admitted s (r, st)) :
    Contained s (serve s r st).2 := by
  obtain ⟨ha, hb⟩ := hok
  cases r with
  | lookup p name =>
      obtain ⟨q, hq⟩ := lookupServer_moves s p name st
      simp only [serve, hq]
      exact h.contained_seek hs q
  | stat i =>
      obtain ⟨node, q, hfind⟩ := findInode_moves s i st.node
      have hmove : (statServer s i st.response.stat st).2.2 = s.seek q := by
        rw [statServer, hfind]
        simp only
        split <;> rfl
      simp only [serve, hmove]
      exact h.contained_seek hs q
  | write i buffer block =>
      rcases h.writeServer_cases st ha with ⟨ret, q, heq, _, _⟩ | ⟨k, halloc, hfile, heq, _⟩
      · simp only [serve, heq]
        exact h.contained_seek hs q
      · have hbw : (afterWrite s i k buffer).Bounded := by
          have hb' : (writeServer s i buffer block st).2.Bounded := hb
          rw [heq] at hb'
          exact hb'
        simp only [serve, heq]
        exact h.contained_write hs halloc (h.afterWrite_wf halloc hfile hbw).1
  | read i block =>
      obtain ⟨b, q, hread⟩ := readServer_moves s i st.response.buffer block st
      simp only [serve, hread]
      exact h.contained_seek hs q
  | creat p type name => exact h.contained_creat hs ha hb
  | unlink p name =>
      rcases h.unlinkServer_cases st ha with ⟨ret, q, heq, _, _⟩ | ⟨_, _, hclears⟩
      · simp only [serve, heq]
        exact h.contained_seek hs q
      · exact h.contained_unlink hs hclears

end Requests

/-! ## Restarting -/

theorem issued_eq {s : Server} {r : Request} {st : Stack} {ws : List WriteCall} {q : Nat}
    (h : (serve s r st).2.file = (s.file.pwrites ws).seekTo q) : issued s r st = ws := by
  rw [issued, h, File.seekTo_trace, File.pwrites_trace, List.drop_left]

/-- What `start_server` loads from a surviving image. -/
theorem Snapshot.reload {lo hi : Int32} {v : Server} (h : Snapshot lo hi v) :
    ∃ c, (c = lo ∨ c = hi) ∧ Linux.reload v.file = { v.seek 16388 with nextBlock := c } := by
  obtain ⟨c, hc, hsync⟩ := h.stored
  exact ⟨c, hc, hsync.reload_eq h.wf.inRange⟩

/-- **Crashes.**  In every state of a run whose creations of an unknown type do not extend a
directory, for every request on a number that is out of range or allocated and every prefix of its
write calls, `start_server` loads a state in which no block has two owners; the `next_block` it loads
is the one before or the one after the request, and every block in use lies below it or is one of
those that the request has taken. -/
theorem crash_contained {stack : Directory} {xs : List Turn} {s : Server}
    (hrun : Run turn Kept (format stack) xs s) {r : Request} {st : Stack} (hok : Admitted s (r, st))
    (n : Nat) :
    (∀ i j x, (crash s r st n).Owns i x → (crash s r st n).Owns j x → i = j) ∧
      ((crash s r st n).nextBlock = s.nextBlock ∨
        (crash s r st n).nextBlock = (serve s r st).2.nextBlock) ∧
      ∀ i x, (crash s r st n).Owns i x → x.toInt < (crash s r st n).nextBlock.toInt ∨
        (s.nextBlock.toInt ≤ x.toInt ∧ x.toInt < (serve s r st).2.nextBlock.toInt) := by
  obtain ⟨hwf₀, _, hsync₀⟩ := format_spec stack
  obtain ⟨hwf, hsync⟩ : WF s ∧ InSync s :=
    hrun.invariant (I := fun u => WF u ∧ InSync u) (fun u x hu hok => hu.1.turn_kept hu.2 hok)
      ⟨hwf₀, hsync₀⟩
  obtain ⟨ws, q, hfile, hall⟩ := hwf.contained hsync hok
  obtain ⟨v, hv, hsnap⟩ := hall n
  obtain ⟨c, hc, hload⟩ := hsnap.reload
  have hcrash : crash s r st n = { v.seek 16388 with nextBlock := c } := by
    rw [crash, issued_eq hfile, ← hv, hload]
  have howns : ∀ i x, (crash s r st n).Owns i x → v.Owns i x := by
    intro i x hx
    rw [hcrash] at hx
    exact hx
  refine ⟨?_, ?_, ?_⟩
  · intro i j x hi hj
    exact hsnap.wf.disjoint i j x (howns i x hi) (howns j x hj)
  · rw [hcrash]
    exact hc
  · intro i x hx
    have hlt := ((hsnap.wf.node i (howns i x hx).1).owned x (howns i x hx)).2
    have hle := hsnap.le
    have hnext : (crash s r st n).nextBlock = c := by rw [hcrash]
    rw [hnext]
    by_cases hlow : x.toInt < c.toInt
    · exact Or.inl hlow
    · rcases hc with rfl | rfl
      · exact Or.inr ⟨by omega, by omega⟩
      · omega

theorem admitted_creat_fresh : Admitted (format (default : Stack).direct)
    (.creat 0 mfsRegularFile ⟨[97], by decide, by decide⟩, default) := by
  obtain ⟨hwf, htree, _⟩ := format_spec (default : Stack).direct
  refine hwf.admitted_of_tree (Or.inr (by rw [htree]; decide +kernel)) ?_
  rw [format_eq]
  decide

theorem crash_contained_creat :
    Admitted (format (default : Stack).direct)
        (.creat 0 mfsRegularFile ⟨[97], by decide, by decide⟩, default) ∧
      ∀ n i j x,
        (crash (format (default : Stack).direct) (.creat 0 mfsRegularFile ⟨[97], by decide, by decide⟩)
          default n).Owns i x →
        (crash (format (default : Stack).direct) (.creat 0 mfsRegularFile ⟨[97], by decide, by decide⟩)
          default n).Owns j x → i = j :=
  ⟨admitted_creat_fresh, fun n => (crash_contained (Run.nil _) admitted_creat_fresh n).1⟩

/-- Every write that is interrupted after its second write call: the inode already points to the
block that the loaded `next_block` is going to hand out again. -/
theorem WF.not_crashSafe_write {s : Server} (h : WF s) (hs : InSync s) {i block : Int32}
    (ha : s.Allocated i) (hfile : (s.inode i).type = mfsRegularFile) {k : Fin 14}
    (hblock : blockIndex block = some k) (buffer : Block) (st : Stack) :
    ¬ CrashSafe (crash s (.write i buffer block) st 2) := by
  have hr := h.inRange i ha
  have heq : writeServer s i buffer block st = (0, updateCR (afterWrite s i k buffer) i) :=
    h.writeServer_eq ha hfile hblock st
  have hissued : issued s (.write i buffer block) st =
      writeCalls s i k buffer ++ crWrites (afterWrite s i k buffer) i := by
    refine issued_eq (q := 16388) ?_
    simp only [serve, heq]
    rw [updateCR_eq hr, File.pwrites_append]
    rfl
  have hlog : ∀ w ∈ writeCalls s i k buffer, InLog w := by
    intro w hw
    simp only [writeCalls, List.mem_cons, List.not_mem_nil, or_false] at hw
    rcases hw with rfl | rfl
    · exact h.inLog_past (h.pastLog_next (Nat.le_refl _) _)
    · exact h.inLog_owned (NodeWF.owns_inode ha) _ _
  have hsync : InSync { afterWrite s i k buffer with nextBlock := s.nextBlock } :=
    hs.log (l := writeCalls s i k buffer) (p := (afterWrite s i k buffer).file.pos) rfl hlog
      (fun _ _ => rfl) rfl
  have hcrash : crash s (.write i buffer block) st 2 =
      { (afterWrite s i k buffer).seek 16388 with nextBlock := s.nextBlock } := by
    have htake : (writeCalls s i k buffer ++ crWrites (afterWrite s i k buffer) i).take 2 =
        writeCalls s i k buffer := rfl
    rw [crash, hissued, htake]
    exact hsync.reload_eq h.inRange
  intro hsafe
  rw [hcrash] at hsafe
  have hinode : (afterWrite s i k buffer).inode i = (s.inode i).withBlock k s.nextBlock :=
    afterWrite_inode
  have howns : Server.Owns { (afterWrite s i k buffer).seek 16388 with nextBlock := s.nextBlock } i
      s.nextBlock := by
    refine ⟨ha, Or.inr ⟨k, ?_, ?_⟩⟩
    · show ((afterWrite s i k buffer).inode i).dpUsed k = 1
      rw [hinode]
      exact (withBlock_used_iff ((h.node i ha).used_bit k)).mpr (Or.inl rfl)
    · show s.nextBlock = ((afterWrite s i k buffer).inode i).dpointers k
      rw [hinode, withBlock_dpointers, Function.update_self]
  exact Int.lt_irrefl _ (hsafe i _ howns).1

/-- A fresh image, one file, and a write to it. -/
theorem not_crash_safe :
    ¬ ∀ (xs : List Turn) (s : Server) (r : Request) (st : Stack) (n : Nat),
      Run turn Admitted (format (default : Stack).direct) xs s → Admitted s (r, st) →
        CrashSafe (crash s r st n) := by
  intro hclaim
  obtain ⟨hwf₀, htree₀, hsync₀⟩ := format_spec (default : Stack).direct
  have href := hwf₀.turn_refines admitted_creat_fresh
  have hrun : Run turn Admitted (format (default : Stack).direct) [_] _ :=
    Run.cons admitted_creat_fresh (Run.nil _)
  have hsync := href.sync hsync₀ fun hforget => by
    obtain ⟨_, _, _, _, _, _, _, hf⟩ := hforget
    exact hf rfl
  have htree := href.tree_eq
  rw [htree₀] at htree
  have hnext := href.next_le
  have hstat : ((Fs.init.exec (.creat 0 mfsRegularFile ⟨[97], by decide, by decide⟩)).2.stat 1).map
      Stat.type = some mfsRegularFile := by decide +kernel
  have hsome : ((Fs.init.exec (.creat 0 mfsRegularFile ⟨[97], by decide, by decide⟩)).2 1).isSome =
      true := by decide +kernel
  rw [← htree] at hstat hsome
  have ha := allocated_iff.mpr (Option.isSome_iff_ne_none.mp hsome)
  have hfile := href.wf.stat_eq ha
  rw [hfile, Option.map_some, Option.some.injEq] at hstat
  have hok := href.wf.admitted_of_tree (x := (.write 1 (fun _ => 0) 0, default)) (Or.inr hsome) ?_
  · exact href.wf.not_crashSafe_write hsync ha hstat (k := 0) rfl _ _ (hclaim _ _ _ _ 2 hrun hok)
  · have hbase : (format (default : Stack).direct).nextBlock.toInt = 8 := by
      rw [format_eq]
      rfl
    omega

end Linux
end LfsXv6
