import LfsXv6.Xv6.Icache

/-!
# Locks — which functions leave buffers locked

Every function of `fs.c` brackets its `bread` calls with `brelse`, on every path, except `stati`,
which reads the indirect block and returns.
-/

namespace LfsXv6
namespace Xv6

open Lib Prog

/-- `x` leaves the locked buffers as they were. -/
abbrev Balanced {α : Type} (x : Prog Bufs α) : Prop := Keeps Bufs.busy x

/-- `x` releases `b` and nothing else. -/
def Releases {α : Type} (b : Nat) (x : Prog Bufs α) : Prop :=
  ∀ s a t, x s = .ok (a, t) → t.busy = s.busy.erase b

section Rules

variable {α β : Type} {b : Nat} {x : Prog Bufs α} {f : α → Prog Bufs β}

theorem releases_brelse : Releases b (brelse b) := by
  intro s a t h
  rw [(brelse_eq_ok h).2]

theorem balanced_bwrite {d : Sector} : Balanced (bwrite b d) := by
  intro s a t h
  rw [(bwrite_eq_ok h).2]

theorem releases_before (hx : Balanced x) (hf : ∀ a, Releases b (f a)) : Releases b (x >>= f) := by
  intro s c u h
  obtain ⟨a, t, hxa, hfa⟩ := bind_eq_ok h
  rw [hf a t c u hfa, hx s a t hxa]

theorem releases_after (hx : Releases b x) (hf : ∀ a, Balanced (f a)) : Releases b (x >>= f) := by
  intro s c u h
  obtain ⟨a, t, hxa, hfa⟩ := bind_eq_ok h
  rw [hf a t c u hfa, hx s a t hxa]

theorem releases_halt {message : String} : Releases b (halt message : Prog Bufs α) := by
  intro s a t h
  cases h

theorem releases_ite {p : Prop} [Decidable p] {y : Prog Bufs α} (hx : Releases b x)
    (hy : Releases b y) : Releases b (if p then x else y) := by
  split
  · exact hx
  · exact hy

/-- A buffer that is read and then released. -/
theorem balanced_bread {f : Sector → Prog Bufs β} (hf : ∀ d, Releases b (f d)) :
    Balanced (bread b >>= f) := by
  intro s c u h
  obtain ⟨d, t, hread, hfd⟩ := bind_eq_ok h
  obtain ⟨_, _, _, rfl⟩ := bread_eq_ok hread
  rw [hf d _ c u hfd, List.erase_cons_head]

end Rules

/-! ## Blocks and files -/

theorem balanced_readsb : Balanced readsb :=
  balanced_bread fun _ => releases_after releases_brelse fun _ => keeps_pure _

theorem balanced_bzero (b : Nat) : Balanced (bzero b) :=
  balanced_bread fun _ => releases_before balanced_bwrite fun _ => releases_brelse

theorem balanced_ballocLoop (ninodes : Nat) (bs : List Nat) : Balanced (ballocLoop ninodes bs) := by
  induction bs with
  | nil => exact keeps_halt _
  | cons b bs ih =>
      refine balanced_bread fun d => ?_
      cases d.freeBit with
      | some bi =>
          exact releases_before balanced_bwrite fun _ =>
            releases_after releases_brelse fun _ => keeps_pure _
      | none => exact releases_after releases_brelse fun _ => ih

theorem balanced_balloc : Balanced balloc :=
  keeps_bind balanced_readsb fun _ => balanced_ballocLoop _ _

theorem balanced_bfree (b : UInt32) : Balanced (bfree b) :=
  keeps_bind (balanced_bzero _) fun _ => keeps_bind balanced_readsb fun _ =>
    balanced_bread fun _ => releases_ite releases_halt
      (releases_before balanced_bwrite fun _ => releases_brelse)

theorem balanced_iallocLoop (type : Int16) (inums : List Nat) : Balanced (iallocLoop type inums) := by
  induction inums with
  | nil => exact keeps_halt _
  | cons inum inums ih =>
      refine balanced_bread fun d => releases_ite ?_ ?_
      · exact releases_before balanced_bwrite fun _ =>
          releases_after releases_brelse fun _ => keeps_pure _
      · exact releases_after releases_brelse fun _ => ih

theorem balanced_ialloc (type : Int16) : Balanced (ialloc type) :=
  keeps_bind balanced_readsb fun _ => balanced_iallocLoop _ _

theorem balanced_iupdate (ip : Inode) : Balanced (iupdate ip) :=
  balanced_bread fun _ => releases_before balanced_bwrite fun _ => releases_brelse

theorem balanced_iload (inum : Nat) : Balanced (iload inum) :=
  balanced_bread fun _ => releases_after releases_brelse fun _ => keeps_pure _

theorem balanced_bmapSlot (ip : Inode) (k : Fin 13) : Balanced (bmapSlot ip k) :=
  keeps_ite (keeps_bind balanced_balloc fun _ => keeps_pure _) (keeps_pure _)

theorem balanced_bmapEntry (type : Int16) (ind bn : Nat) : Balanced (bmapEntry type ind bn) := by
  refine balanced_bread fun a => releases_ite ?_ ?_
  · exact releases_before balanced_balloc fun _ => releases_before balanced_bwrite fun _ =>
      releases_after releases_brelse fun _ => keeps_pure _
  · exact releases_after releases_brelse fun _ => keeps_pure _

theorem balanced_bmap (ip : Inode) (bn : Nat) : Balanced (bmap ip bn) := by
  unfold bmap
  split
  · exact balanced_bmapSlot _ _
  · exact keeps_ite (keeps_bind (balanced_bmapSlot _ _) fun _ =>
      keeps_bind (balanced_bmapEntry _ _ _) fun _ => keeps_pure _) (keeps_halt _)

theorem balanced_itruncDirect (ip : Inode) (ks : List (Fin 13)) : Balanced (itruncDirect ip ks) := by
  induction ks generalizing ip with
  | nil => exact keeps_pure _
  | cons k ks ih => exact keeps_ite (keeps_bind (balanced_bfree _) fun _ => ih _) (ih _)

theorem balanced_itruncEntries (a : Sector) (js : List Nat) : Balanced (itruncEntries a js) :=
  keeps_each (fun _ => keeps_ite (balanced_bfree _) (keeps_pure _)) js

theorem balanced_itruncIndirect (ip : Inode) : Balanced (itruncIndirect ip) := by
  refine keeps_ite (balanced_bread fun a => ?_) (keeps_pure _)
  exact releases_before (balanced_itruncEntries _ _) fun _ => releases_after releases_brelse fun _ =>
    keeps_bind (balanced_bfree _) fun _ => keeps_pure _

theorem balanced_itrunc (ip : Inode) : Balanced (itrunc ip) :=
  keeps_bind (balanced_itruncDirect _ _) fun _ => keeps_bind (balanced_itruncIndirect _) fun _ =>
    keeps_bind (balanced_iupdate _) fun _ => keeps_pure _

theorem balanced_storedCheck (ip : Inode) (bn : Nat) : Balanced (storedCheck ip bn) := by
  unfold storedCheck
  split
  · exact keeps_pure _
  · exact balanced_bread fun _ => releases_after releases_brelse fun _ => keeps_pure _

theorem balanced_storeCheck (ip : Inode) (bn : Nat) (checkSum : UInt8) :
    Balanced (storeCheck ip bn checkSum) := by
  unfold storeCheck
  split
  · exact keeps_pure _
  · exact balanced_bread fun _ => releases_before balanced_bwrite fun _ =>
      releases_after releases_brelse fun _ => keeps_pure _

theorem balanced_readiLoop (ip : Inode) (ps : List (Nat × Nat)) : Balanced (readiLoop ip ps) := by
  induction ps generalizing ip with
  | nil => exact keeps_pure _
  | cons p ps ih =>
      refine keeps_bind (balanced_bmap _ _) fun r => balanced_bread fun d =>
        releases_after releases_brelse fun _ => keeps_ite ?_ ?_
      · refine keeps_bind (balanced_bmap _ _) fun r => balanced_bread fun d =>
          releases_after releases_brelse fun _ => keeps_bind (balanced_storedCheck _ _) fun _ => ?_
        exact keeps_ite (keeps_pure _) (keeps_bind (ih _) fun _ => keeps_pure _)
      · exact keeps_bind (ih _) fun _ => keeps_pure _

theorem balanced_readi (dev : Devsw) (ip : Inode) (off n : UInt32) : Balanced (readi dev ip off n) := by
  unfold readi
  refine keeps_ite (keeps_ite (keeps_pure _) ?_) (keeps_ite (keeps_pure _) ?_)
  · cases dev.read ip.major <;> exact keeps_pure _
  · exact keeps_bind (balanced_readiLoop _ _) fun _ => keeps_ite (keeps_pure _) (keeps_pure _)

theorem balanced_recheck (ip : Inode) (bn : Nat) : Balanced (recheck ip bn) :=
  keeps_ite (keeps_bind (balanced_bmap _ _) fun _ => balanced_bread fun _ =>
    releases_after releases_brelse fun _ => balanced_storeCheck _ _ _) (keeps_pure _)

theorem balanced_writeiLoop (ip : Inode) (ps : List (Nat × Nat)) (src : List UInt8) :
    Balanced (writeiLoop ip ps src) := by
  induction ps generalizing ip src with
  | nil => exact keeps_pure _
  | cons p ps ih =>
      refine keeps_bind (balanced_bmap _ _) fun r => balanced_bread fun d => ?_
      exact releases_before balanced_bwrite fun _ => releases_after releases_brelse fun _ =>
        keeps_bind (balanced_recheck _ _) fun _ => ih _ _

theorem balanced_writei (dev : Devsw) (ip : Inode) (src : List UInt8) (off n : UInt32) :
    Balanced (writei dev ip src off n) := by
  unfold writei
  refine keeps_ite (keeps_ite (keeps_pure _) ?_) (keeps_ite (keeps_pure _) ?_)
  · cases dev.write ip.major <;> exact keeps_pure _
  · exact keeps_bind (balanced_writeiLoop _ _ _) fun _ => keeps_bind (balanced_iupdate _) fun _ =>
      keeps_pure _

/-- `stati` keeps the buffer of the indirect block. -/
theorem stati_busy {ip : Inode} {s t : Bufs} {st : Stat} (h : stati ip s = .ok (st, t)) :
    t.busy = (maskAddr (ip.addrs 12)).toNat :: s.busy := by
  obtain ⟨d, u, hread, hrest⟩ := bind_eq_ok h
  obtain ⟨_, _, _, rfl⟩ := bread_eq_ok hread
  cases hrest
  rfl

/-! ## In-core inodes, directories and paths -/

/-- The locked buffers, seen from the upper layers. -/
def Kernel.locked (s : Kernel) : List Nat := s.bufs.busy

section Upper

variable {α : Type}

theorem keeps_onDisk {x : Prog Bufs α} (h : Balanced x) : Keeps Kernel.locked (onDisk x) := by
  intro s a t hrun
  unfold onDisk at hrun
  split at hrun
  · rename_i b bufs hx
    cases hrun
    exact h s.bufs _ _ hx
  · cases hrun

theorem keeps_setSlot (i : Slot) (f : Cached → Cached) : Keeps Kernel.locked (setSlot i f) := by
  intro s a t h
  cases h
  rfl

theorem keeps_withNode {i : Slot} {f : Inode → Prog Bufs (α × Inode)} (h : ∀ ip, Balanced (f ip)) :
    Keeps Kernel.locked (withNode i f) :=
  keeps_bind (keeps_look _) fun _ => keeps_bind (keeps_onDisk (h _)) fun _ =>
    keeps_bind (keeps_setSlot _ _) fun _ => keeps_pure _

theorem keeps_iget (inum : Nat) : Keeps Kernel.locked (iget inum) := by
  refine keeps_bind (keeps_look _) fun icache => ?_
  split
  · exact keeps_bind (keeps_setSlot _ _) fun _ => keeps_pure _
  · split
    · exact keeps_halt _
    · exact keeps_bind (keeps_setSlot _ _) fun _ => keeps_pure _

theorem keeps_idup (i : Slot) : Keeps Kernel.locked (idup i) :=
  keeps_bind (keeps_setSlot _ _) fun _ => keeps_pure _

theorem keeps_ilock (i : Slot) : Keeps Kernel.locked (ilock i) := by
  refine keeps_bind (keeps_look _) fun c => keeps_ite (keeps_halt _) (keeps_ite ?_ ?_)
  · rintro s a t h
    cases h
  · refine keeps_bind (keeps_setSlot _ _) fun _ => keeps_ite (keeps_pure _) ?_
    exact keeps_bind (keeps_onDisk (balanced_iload _)) fun _ => keeps_bind (keeps_setSlot _ _)
      fun _ => keeps_ite (keeps_halt _) (keeps_pure _)

theorem keeps_iunlock (i : Slot) : Keeps Kernel.locked (iunlock i) :=
  keeps_bind (keeps_look _) fun _ => keeps_ite (keeps_halt _) (keeps_setSlot _ _)

theorem keeps_ifree (i : Slot) : Keeps Kernel.locked (ifree i) :=
  keeps_bind (keeps_setSlot _ _) fun _ =>
    keeps_bind (keeps_withNode fun _ => keeps_bind (balanced_itrunc _) fun _ =>
      keeps_bind (balanced_iupdate _) fun _ => keeps_pure _) fun _ => keeps_setSlot _ _

theorem keeps_iput (i : Slot) : Keeps Kernel.locked (iput i) := by
  refine keeps_bind ?_ fun _ => keeps_setSlot _ _
  exact keeps_bind (keeps_look _) fun _ =>
    keeps_ite (keeps_ite (keeps_halt _) (keeps_ifree _)) (keeps_pure _)

theorem keeps_iunlockput (i : Slot) : Keeps Kernel.locked (iunlockput i) :=
  keeps_bind (keeps_iunlock _) fun _ => keeps_iput _

theorem balanced_dirlookupLoop (name : List UInt8) (ip : Inode) (bns : List Nat) :
    Balanced (dirlookupLoop name ip bns) := by
  induction bns generalizing ip with
  | nil => exact keeps_pure _
  | cons bn bns ih =>
      refine keeps_bind (balanced_bmap _ _) fun r => balanced_bread fun d => ?_
      cases d.findEntry name with
      | some k => exact releases_after releases_brelse fun _ => keeps_pure _
      | none => exact releases_after releases_brelse fun _ => ih _

theorem keeps_dirlookup (dp : Slot) (name : List UInt8) : Keeps Kernel.locked (dirlookup dp name) := by
  refine keeps_bind (keeps_look _) fun c => keeps_ite (keeps_halt _) ?_
  refine keeps_bind (keeps_withNode fun _ => balanced_dirlookupLoop _ _ _) fun found => ?_
  cases found with
  | none => exact keeps_pure _
  | some r => exact keeps_bind (keeps_iget _) fun _ => keeps_pure _

theorem balanced_dirlinkLoop (dev : Devsw) (ip : Inode) (stop : Nat) (offs : List Nat) :
    Balanced (dirlinkLoop dev ip stop offs) := by
  induction offs generalizing ip with
  | nil => exact keeps_pure _
  | cons off offs ih =>
      exact keeps_bind (balanced_readi _ _ _ _) fun _ =>
        keeps_ite (keeps_halt _) (keeps_ite (keeps_pure _) (ih _))

theorem keeps_dirlink (dev : Devsw) (dp : Slot) (name : List UInt8) (inum : Nat) :
    Keeps Kernel.locked (dirlink dev dp name inum) := by
  refine keeps_bind (keeps_dirlookup _ _) fun found => ?_
  cases found with
  | some r => exact keeps_bind (keeps_iput _) fun _ => keeps_pure _
  | none =>
      refine keeps_bind (keeps_withNode fun ip => ?_) fun _ => keeps_pure _
      exact keeps_bind (balanced_dirlinkLoop _ _ _ _) fun _ => keeps_bind (balanced_writei _ _ _ _ _)
        fun _ => keeps_ite (keeps_halt _) (keeps_pure _)

theorem keeps_namexLoop (nameiparent : Bool) (ip : Slot) (names : List (List UInt8)) :
    Keeps Kernel.locked (namexLoop nameiparent ip names) := by
  induction names generalizing ip with
  | nil => exact keeps_ite (keeps_bind (keeps_iput _) fun _ => keeps_pure _) (keeps_pure _)
  | cons name names ih =>
      refine keeps_bind (keeps_ilock _) fun _ => keeps_bind (keeps_look _) fun c => ?_
      refine keeps_ite (keeps_bind (keeps_iunlockput _) fun _ => keeps_pure _) (keeps_ite ?_ ?_)
      · exact keeps_bind (keeps_iunlock _) fun _ => keeps_pure _
      · refine keeps_bind (keeps_dirlookup _ _) fun found => ?_
        cases found with
        | none => exact keeps_bind (keeps_iunlockput _) fun _ => keeps_pure _
        | some r => exact keeps_bind (keeps_iunlockput _) fun _ => ih _

theorem keeps_namex (cwd : Slot) (path : List UInt8) (nameiparent : Bool) :
    Keeps Kernel.locked (namex cwd path nameiparent) :=
  keeps_bind (keeps_ite (keeps_iget _) (keeps_idup _)) fun _ => keeps_namexLoop _ _ _

end Upper

/-! ## Calls -/

/-- A call of one of the functions of `fs.c`, with its arguments. -/
inductive Call where
  | balloc
  | bfree (b : UInt32)
  | ialloc (type : Int16)
  | iupdate (ip : Slot)
  | ilock (ip : Slot)
  | iput (ip : Slot)
  | bmap (ip : Slot) (bn : Nat)
  | itrunc (ip : Slot)
  | stati (ip : Slot)
  | readi (ip : Slot) (off n : UInt32)
  | writei (ip : Slot) (src : List UInt8) (off n : UInt32)
  | dirlookup (dp : Slot) (name : List UInt8)
  | dirlink (dp : Slot) (name : List UInt8) (inum : Nat)
  | namex (cwd : Slot) (path : List UInt8) (nameiparent : Bool)

/-- Run a program for its effect. -/
def forget {α : Type} (x : Prog Kernel α) : Prog Kernel Unit := do
  let _ ← x
  return ()

/-- Execute a call; what it returns is dropped. -/
def Call.run (dev : Devsw) : Call → Prog Kernel Unit
  | .balloc => forget (onDisk Xv6.balloc)
  | .bfree b => onDisk (Xv6.bfree b)
  | .ialloc type => do
      let inum ← onDisk (Xv6.ialloc type)
      forget (iget inum)
  | .iupdate ip => withNode ip fun node => do
      Xv6.iupdate node
      return ((), node)
  | .ilock ip => Xv6.ilock ip
  | .iput ip => Xv6.iput ip
  | .bmap ip bn => forget (withNode ip fun node => Xv6.bmap node bn)
  | .itrunc ip => withNode ip fun node => do
      let node ← Xv6.itrunc node
      return ((), node)
  | .stati ip => forget (withNode ip fun node => do
      let st ← Xv6.stati node
      return (st, node))
  | .readi ip off n => forget (withNode ip fun node => Xv6.readi dev node off n)
  | .writei ip src off n => forget (withNode ip fun node => Xv6.writei dev node src off n)
  | .dirlookup dp name => forget (Xv6.dirlookup dp name)
  | .dirlink dp name inum => forget (Xv6.dirlink dev dp name inum)
  | .namex cwd path nameiparent => forget (Xv6.namex cwd path nameiparent)

/-- The calls that release what they lock. -/
def Call.Releasing : Call → Prop
  | .stati _ => False
  | _ => True

theorem keeps_forget {α : Type} {x : Prog Kernel α} (h : Keeps Kernel.locked x) :
    Keeps Kernel.locked (forget x) := keeps_bind h fun _ => keeps_pure _

theorem Call.Releasing.keeps (dev : Devsw) {c : Call} (h : c.Releasing) :
    Keeps Kernel.locked (c.run dev) := by
  cases c with
  | balloc => exact keeps_forget (keeps_onDisk balanced_balloc)
  | bfree b => exact keeps_onDisk (balanced_bfree b)
  | ialloc type =>
      exact keeps_bind (keeps_onDisk (balanced_ialloc type)) fun _ => keeps_forget (keeps_iget _)
  | iupdate ip =>
      unfold Call.run
      exact keeps_withNode fun _ => keeps_bind (balanced_iupdate _) fun _ => keeps_pure _
  | ilock ip => exact keeps_ilock ip
  | iput ip => exact keeps_iput ip
  | bmap ip bn => exact keeps_forget (keeps_withNode fun _ => balanced_bmap _ _)
  | itrunc ip =>
      unfold Call.run
      exact keeps_withNode fun _ => keeps_bind (balanced_itrunc _) fun _ => keeps_pure _
  | stati ip => exact h.elim
  | readi ip off n => exact keeps_forget (keeps_withNode fun _ => balanced_readi _ _ _ _)
  | writei ip src off n => exact keeps_forget (keeps_withNode fun _ => balanced_writei _ _ _ _ _)
  | dirlookup dp name => exact keeps_forget (keeps_dirlookup dp name)
  | dirlink dp name inum => exact keeps_forget (keeps_dirlink dev dp name inum)
  | namex cwd path nameiparent => exact keeps_forget (keeps_namex cwd path nameiparent)

theorem run_stati_locked {dev : Devsw} {ip : Slot} {s t : Kernel} {x : Unit}
    (h : (Call.stati ip).run dev s = .ok (x, t)) :
    t.locked = (maskAddr ((s.icache ip).node.addrs 12)).toNat :: s.locked := by
  unfold Call.run at h
  obtain ⟨st, u, hnode, hpure⟩ := bind_eq_ok h
  cases hpure
  obtain ⟨c, v, hlook, hrest⟩ := bind_eq_ok hnode
  cases hlook
  obtain ⟨r, w, hdisk, hset⟩ := bind_eq_ok hrest
  obtain ⟨_, y, hslot, hret⟩ := bind_eq_ok hset
  cases hslot
  cases hret
  unfold onDisk at hdisk
  split at hdisk
  · rename_i a bufs hrun
    cases hdisk
    obtain ⟨st', bufs', hstati, hpure'⟩ := bind_eq_ok hrun
    cases hpure'
    exact stati_busy hstati
  · cases hdisk

/-- **Locked buffers.**  A call that returns leaves the locked buffers as they were exactly when it is
not a call of `stati`; and so does any sequence of such calls. -/
theorem locks_kept (dev : Devsw) :
    (∀ (c : Call) (s t : Kernel) (x : Unit), c.run dev s = .ok (x, t) →
      (t.locked = s.locked ↔ c.Releasing)) ∧
    ∀ (cs : List Call), (∀ c ∈ cs, c.Releasing) → ∀ (s t : Kernel) (x : Unit),
      each (Call.run dev) cs s = .ok (x, t) → t.locked = s.locked := by
  constructor
  · intro c s t x h
    constructor
    · intro heq
      cases c with
      | stati ip =>
          rw [run_stati_locked h] at heq
          exact absurd heq (List.cons_ne_self _ _)
      | _ => trivial
    · exact fun hc => hc.keeps dev s x t h
  · intro cs
    induction cs with
    | nil =>
        intro _ s t x h
        cases h
        rfl
    | cons c cs ih =>
        intro hall s t x h
        obtain ⟨y, u, hc, hcs⟩ := bind_eq_ok h
        rw [ih (fun c hc => hall c (List.mem_cons_of_mem _ hc)) u t x hcs]
        exact (hall c List.mem_cons_self).keeps dev s y u hc

/-- A kernel that holds one directory inode without blocks, in slot 0. -/
def oneInode : Kernel where
  bufs := { disk := fun _ _ => 0, busy := [] }
  icache := fun _ =>
    { ref := 1
      busy := false
      valid := true
      node := { type := tDir, major := 0, minor := 0, nlink := 1, size := 0, addrs := fun _ => 0,
                inum := 1 } }

theorem locks_kept_ilock : ∃ t,
    (Call.ilock 0).run ⟨fun _ => none, fun _ => none⟩ oneInode = .ok ((), t) ∧
      t.locked = oneInode.locked := by
  refine ⟨_, rfl, ?_⟩
  exact ((locks_kept ⟨fun _ => none, fun _ => none⟩).1 (.ilock 0) oneInode _ () rfl).mpr trivial

/-- `stati` on an inode without an indirect block leaves the buffer of block 0 locked; the next call
waits for it forever. -/
theorem not_locks_kept :
    (¬ ∀ (dev : Devsw) (c : Call) (s t : Kernel) (x : Unit), c.run dev s = .ok (x, t) →
      t.locked = s.locked) ∧
    each (Call.run ⟨fun _ => none, fun _ => none⟩) [.stati 0, .stati 0] oneInode = .error .sleep := by
  constructor
  · intro hclaim
    have h := hclaim ⟨fun _ => none, fun _ => none⟩ (.stati 0) oneInode _ () rfl
    exact absurd h (by decide)
  · rfl

end Xv6
end LfsXv6
