import LfsXv6.Lib.Run
import LfsXv6.Xv6.Icache

/-!
# Itable — the table of in-core inodes under any number of processes

The steps are those that `icache.lock` delimits, and the transfers between a locked inode and the disk.
`iput` takes four steps to free an inode: it marks it busy and lets go of the lock, truncates the inode,
writes it back with type 0, and takes the lock again to drop the reference.  In between other processes
may allocate the same inode number and get the same slot.
-/

namespace LfsXv6
namespace Xv6

open Lib

/-- `struct inode`.  The number of references is bounded by those of files and processes, so it does
not overflow. -/
structure InodeSlot where
  dev : UInt32
  inum : UInt32
  ref : Nat
  busy : Bool
  valid : Bool
  node : Dinode

/-- Where a process is: outside, asleep in `ilock`, reading the inode in `ilock`, or in `iput`, before
`itrunc`, before the last `iupdate`, or before it takes the lock again. -/
inductive InodePc where
  | idle
  | ilock (i : Slot)
  | fetch (i : Slot)
  | trunc (i : Slot)
  | erase (i : Slot)
  | finish (i : Slot)
  deriving DecidableEq

/-- The slot that a process has locked inside a call. -/
def InodePc.lock : InodePc → Option Slot
  | .idle | .ilock _ => none
  | .fetch i | .trunc i | .erase i | .finish i => some i

/-- The table, the inodes on the disk, the processes with the references they hold and the inodes they
have locked.  `synced` is for the specification: the fields have not been changed since they were last
read or written. -/
structure Itable where
  slot : Slot → InodeSlot
  disk : UInt32 → UInt32 → Dinode
  pc : Nat → InodePc
  held : List (Nat × Slot)
  locked : Nat → List Slot
  synced : Slot → Bool

inductive InodeStep where
  | iget (p : Nat) (dev inum : UInt32)
  | idup (p : Nat) (i : Slot)
  | ilock (p : Nat) (i : Slot)
  | retry (p : Nat)
  | fetched (p : Nat)
  | modify (p : Nat) (i : Slot) (node : Dinode)
  | iupdate (p : Nat) (i : Slot)
  | iunlock (p : Nat) (i : Slot)
  | iput (p : Nat) (i : Slot)
  | truncated (p : Nat)
  | erased (p : Nat)
  | finished (p : Nat)
  | ialloc (dev inum : UInt32) (type : Int16)

namespace Itable

def booted (disk : UInt32 → UInt32 → Dinode) : Itable where
  slot := fun _ => ⟨0, 0, 0, false, false, ⟨0, 0, 0, 0, 0, fun _ => 0⟩⟩
  disk := disk
  pc := fun _ => .idle
  held := []
  locked := fun _ => []
  synced := fun _ => true

def cached (s : Itable) (dev inum : UInt32) : Option Slot :=
  (List.finRange ninode).find? fun i =>
    0 < (s.slot i).ref ∧ (s.slot i).dev = dev ∧ (s.slot i).inum = inum

def empty (s : Itable) : Option Slot := (List.finRange ninode).find? fun i => (s.slot i).ref = 0

/-- One more reference to slot `i` for process `p`. -/
def addRef (s : Itable) (p : Nat) (i : Slot) : Itable :=
  { s with
    slot := Function.update s.slot i { s.slot i with ref := (s.slot i).ref + 1 }
    held := (p, i) :: s.held }

/-- `ip->ref--` -/
def dropRef (s : Itable) (p : Nat) (i : Slot) : Itable :=
  { s with
    slot := Function.update s.slot i { s.slot i with ref := (s.slot i).ref - 1 }
    held := s.held.erase (p, i) }

def setPc (s : Itable) (p : Nat) (pc : InodePc) : Itable :=
  { s with pc := Function.update s.pc p pc }

/-- The fields of slot `i` are written to its inode on the disk. -/
def writeBack (s : Itable) (i : Slot) : Itable :=
  { s with
    disk := Function.update s.disk (s.slot i).dev
      (Function.update (s.disk (s.slot i).dev) (s.slot i).inum (s.slot i).node)
    synced := Function.update s.synced i true }

def setNode (s : Itable) (i : Slot) (node : Dinode) : Itable :=
  { s with slot := Function.update s.slot i { s.slot i with node := node } }

def setBusy (s : Itable) (i : Slot) (busy : Bool) : Itable :=
  { s with slot := Function.update s.slot i { s.slot i with busy := busy } }

/-- A turn of the loop of `ilock`: sleep, or lock the inode and return it or read it. -/
def lockSlot (s : Itable) (p : Nat) (i : Slot) : Itable :=
  if (s.slot i).busy then s.setPc p (.ilock i)
  else if (s.slot i).valid then
    { s.setBusy i true with
      pc := Function.update s.pc p .idle
      locked := Function.update s.locked p (i :: s.locked p) }
  else (s.setBusy i true).setPc p (.fetch i)

/-- `iput` goes on to free the inode. -/
def Frees (s : Itable) (i : Slot) : Prop :=
  (s.slot i).ref = 1 ∧ (s.slot i).valid = true ∧ (s.slot i).node.nlink = 0

instance (s : Itable) (i : Slot) : Decidable (s.Frees i) := inferInstanceAs (Decidable (_ ∧ _ ∧ _))

def step (s : Itable) : InodeStep → Itable
  | .iget p dev inum =>
      match s.cached dev inum with
      | some i => s.addRef p i
      | none =>
          match s.empty with
          | some i =>
              { s with
                slot := Function.update s.slot i
                  { s.slot i with dev := dev, inum := inum, ref := 1, busy := false, valid := false }
                held := (p, i) :: s.held }
          | none => s
  | .idup p i => s.addRef p i
  | .ilock p i => s.lockSlot p i
  | .retry p =>
      match s.pc p with
      | .ilock i => s.lockSlot p i
      | _ => s
  | .fetched p =>
      match s.pc p with
      | .fetch i =>
          { s with
            slot := Function.update s.slot i { s.slot i with
              node := s.disk (s.slot i).dev (s.slot i).inum, valid := true }
            pc := Function.update s.pc p .idle
            locked := Function.update s.locked p (i :: s.locked p) }
      | _ => s
  | .modify _ i node => { s.setNode i node with synced := Function.update s.synced i false }
  | .iupdate _ i => s.writeBack i
  | .iunlock p i =>
      { s.setBusy i false with locked := Function.update s.locked p ((s.locked p).erase i) }
  | .iput p i => if s.Frees i then (s.setBusy i true).setPc p (.trunc i) else s.dropRef p i
  | .truncated p =>
      match s.pc p with
      | .trunc i =>
          ((s.setNode i { (s.slot i).node with size := 0, addrs := fun _ => 0 }).writeBack i).setPc p
            (.erase i)
      | _ => s
  | .erased p =>
      match s.pc p with
      | .erase i =>
          ((s.setNode i { (s.slot i).node with type := 0 }).writeBack i).setPc p (.finish i)
      | _ => s
  | .finished p =>
      match s.pc p with
      | .finish i =>
          (({ s with
            slot := Function.update s.slot i
              { s.slot i with busy := false, valid := false } }).dropRef p i).setPc p .idle
      | _ => s
  | .ialloc dev inum type =>
      { s with
        disk := Function.update s.disk dev
          (Function.update (s.disk dev) inum ⟨type, 0, 0, 0, 0, fun _ => 0⟩) }

/-- The rules for the callers: a process takes one step after the other, passes only
references that it holds, unlocks what it has locked after it has written back what it changed, and
puts only what it has unlocked.  No code but `iput` sets the type of an inode to 0.  Steps that panic
(`iget: no inodes`, `ilock: no type`) are not followed by others. -/
def Admits (s : Itable) : InodeStep → Prop
  | .iget p dev inum => s.pc p = .idle ∧ (s.cached dev inum ≠ none ∨ s.empty ≠ none)
  | .idup p i => s.pc p = .idle ∧ (p, i) ∈ s.held
  | .ilock p i => s.pc p = .idle ∧ (p, i) ∈ s.held
  | .retry _ => True
  | .fetched p => ∀ i, s.pc p = .fetch i → (s.disk (s.slot i).dev (s.slot i).inum).type ≠ 0
  | .modify p i node => s.pc p = .idle ∧ i ∈ s.locked p ∧ node.type ≠ 0
  | .iupdate p i => s.pc p = .idle ∧ i ∈ s.locked p
  | .iunlock p i => s.pc p = .idle ∧ i ∈ s.locked p ∧ s.synced i = true
  | .iput p i => s.pc p = .idle ∧ (p, i) ∈ s.held ∧ i ∉ s.locked p
  | .truncated _ => True
  | .erased _ => True
  | .finished _ => True
  | .ialloc dev inum type => (s.disk dev inum).type = 0 ∧ type ≠ 0

/-- Process `p` owns `I_BUSY` of slot `i`. -/
def Owns (s : Itable) (p : Nat) (i : Slot) : Prop := i ∈ s.locked p ∨ (s.pc p).lock = some i

/-- The number of references to a slot. -/
def refs (s : Itable) (i : Slot) : Nat := s.held.countP fun r => r.2 = i

/-! ## The invariant -/

/-- A referenced inode has one slot, and the counts are right. -/
structure Refs (s : Itable) : Prop where
  uniq : ∀ i j, 0 < (s.slot i).ref → 0 < (s.slot j).ref → (s.slot i).dev = (s.slot j).dev →
    (s.slot i).inum = (s.slot j).inum → i = j
  count : ∀ i, (s.slot i).ref = s.refs i

/-- A busy inode has one owner, who holds a reference. -/
structure Locks (s : Itable) : Prop where
  held : ∀ p i, s.Owns p i → (p, i) ∈ s.held
  busy : ∀ i, (s.slot i).busy = true ↔ ∃ p, s.Owns p i
  owner : ∀ p q i, s.Owns p i → s.Owns q i → p = q
  nodup : ∀ p, (s.locked p).Nodup
  apart : ∀ p i, (s.pc p).lock = some i → i ∉ s.locked p

/-- The fields of a valid slot are those on the disk, unless a process has changed them, or has freed
the inode and is about to mark the slot as not valid. -/
structure Fields (s : Itable) : Prop where
  valid : ∀ p i, i ∈ s.locked p → (s.slot i).valid = true
  synced : ∀ i, s.synced i = false → ∃ p, i ∈ s.locked p
  live : ∀ i, 0 < (s.slot i).ref → (s.slot i).valid = true → (∀ p, s.pc p ≠ .finish i) →
    (s.disk (s.slot i).dev (s.slot i).inum).type ≠ 0 ∧ (s.slot i).node.type ≠ 0 ∧
      (s.synced i = true → (s.slot i).node = s.disk (s.slot i).dev (s.slot i).inum)

structure Kept (s : Itable) : Prop where
  refs : Refs s
  locks : Locks s
  fields : Fields s
  asleep : ∀ p i, s.pc p = .ilock i → (p, i) ∈ s.held

variable {s t : Itable} {p : Nat} {i : Slot}

/-! ### References -/

namespace Refs

theorem booted (disk : UInt32 → UInt32 → Dinode) : Refs (booted disk) where
  uniq _ _ h := absurd h (Nat.lt_irrefl 0)
  count _ := rfl

theorem congr (h : Refs s) (hslot : ∀ j, (t.slot j).ref = (s.slot j).ref ∧
    (t.slot j).dev = (s.slot j).dev ∧ (t.slot j).inum = (s.slot j).inum) (hheld : t.held = s.held) :
    Refs t where
  uniq i j hi hj hdev hinum := by
    rw [(hslot i).1] at hi
    rw [(hslot j).1] at hj
    rw [(hslot i).2.1, (hslot j).2.1] at hdev
    rw [(hslot i).2.2, (hslot j).2.2] at hinum
    exact h.uniq i j hi hj hdev hinum
  count i := by rw [(hslot i).1, h.count i, Itable.refs, Itable.refs, hheld]

/-- A slot that gets one more reference: it is referenced already, or no slot has its inode. -/
theorem add (h : Refs s) {x : InodeSlot} (hx : x.ref = (s.slot i).ref + 1)
    (hid : ∀ j, j ≠ i → 0 < (s.slot j).ref →
      ¬ ((s.slot j).dev = x.dev ∧ (s.slot j).inum = x.inum)) :
    Refs { s with slot := Function.update s.slot i x, held := (p, i) :: s.held } where
  uniq j k hj hk hdev hinum := by
    by_cases hji : j = i <;> by_cases hki : k = i
    · exact hji.trans hki.symm
    · subst hji
      simp only [Function.update_self, Function.update_of_ne hki] at hk hdev hinum
      exact absurd ⟨hdev.symm, hinum.symm⟩ (hid k hki hk)
    · subst hki
      simp only [Function.update_self, Function.update_of_ne hji] at hj hdev hinum
      exact absurd ⟨hdev, hinum⟩ (hid j hji hj)
    · simp only [Function.update_of_ne hji, Function.update_of_ne hki] at hj hk hdev hinum
      exact h.uniq j k hj hk hdev hinum
  count j := by
    by_cases hji : j = i
    · subst hji
      have hcount := h.count j
      simp only [Itable.refs] at hcount
      simp [Itable.refs, hx, hcount]
    · have hcount := h.count j
      simp only [Itable.refs] at hcount
      simp [Itable.refs, hji, hcount, Ne.symm hji]

theorem drop (h : Refs s) {x : InodeSlot} (hx : x.ref = (s.slot i).ref - 1)
    (hid : x.dev = (s.slot i).dev ∧ x.inum = (s.slot i).inum) (hp : (p, i) ∈ s.held) :
    Refs { s with slot := Function.update s.slot i x, held := s.held.erase (p, i) } where
  uniq j k hj hk hdev hinum := by
    -- what is referenced after the step was so before, with the same inode
    have hback : ∀ k, 0 < (Function.update s.slot i x k).ref → 0 < (s.slot k).ref ∧
        (Function.update s.slot i x k).dev = (s.slot k).dev ∧
        (Function.update s.slot i x k).inum = (s.slot k).inum := by
      intro k hk
      by_cases hki : k = i
      · subst hki
        rw [Function.update_self] at hk ⊢
        exact ⟨by omega, hid⟩
      · rw [Function.update_of_ne hki] at hk ⊢
        exact ⟨hk, rfl, rfl⟩
    obtain ⟨hj', hdj, hij⟩ := hback j hj
    obtain ⟨hk', hdk, hik⟩ := hback k hk
    simp only [hdj, hdk] at hdev
    simp only [hij, hik] at hinum
    exact h.uniq j k hj' hk' hdev hinum
  count j := by
    have hcount := h.count j
    simp only [Itable.refs] at hcount
    by_cases hji : j = i
    · subst hji
      simp only [Function.update_self, Itable.refs, hx, hcount, List.countP_erase, hp]
      simp
    · simp only [Function.update_of_ne hji, Itable.refs, hcount, List.countP_erase]
      simp [Ne.symm hji]

end Refs

/-! ### Locks -/

namespace Locks

theorem booted (disk : UInt32 → UInt32 → Dinode) : Locks (booted disk) where
  held p i h := by simp [Itable.booted, Owns, InodePc.lock] at h
  busy i := by simp [Itable.booted, Owns, InodePc.lock]
  owner p q i h := by simp [Itable.booted, Owns, InodePc.lock] at h
  nodup p := List.nodup_nil
  apart p i h := by cases h

theorem not_owned (h : Locks s) (hi : (s.slot i).busy = false) (p : Nat) : ¬ s.Owns p i := by
  intro hp
  have := (h.busy i).mpr ⟨p, hp⟩
  rw [hi] at this
  cases this

theorem same (h : Locks s) (hown : ∀ q j, t.Owns q j ↔ s.Owns q j)
    (hbusy : ∀ j, (t.slot j).busy = (s.slot j).busy)
    (hheld : ∀ q j, s.Owns q j → (q, j) ∈ s.held → (q, j) ∈ t.held)
    (hnodup : ∀ q, (t.locked q).Nodup) (hapart : ∀ q j, (t.pc q).lock = some j → j ∉ t.locked q) :
    Locks t where
  held q j hq := hheld q j ((hown q j).mp hq) (h.held q j ((hown q j).mp hq))
  busy j := by
    rw [hbusy j, h.busy j]
    simp only [hown]
  owner q r j hq hr := h.owner q r j ((hown q j).mp hq) ((hown r j).mp hr)
  nodup := hnodup
  apart := hapart

/-- A process takes the lock of a slot that is not busy. -/
theorem take (h : Locks s) (hi : (s.slot i).busy = false) (hp : (p, i) ∈ s.held)
    (hown : ∀ q j, t.Owns q j ↔ q = p ∧ j = i ∨ s.Owns q j)
    (hbusy : ∀ j, (t.slot j).busy = true ↔ j = i ∨ (s.slot j).busy = true)
    (hheld : t.held = s.held) (hnodup : ∀ q, (t.locked q).Nodup)
    (hapart : ∀ q j, (t.pc q).lock = some j → j ∉ t.locked q) : Locks t where
  held q j hq := by
    rw [hheld]
    rcases (hown q j).mp hq with ⟨rfl, rfl⟩ | hq
    · exact hp
    · exact h.held q j hq
  busy j := by
    rw [hbusy j, h.busy j]
    simp only [hown]
    constructor
    · rintro (rfl | ⟨q, hq⟩)
      · exact ⟨p, Or.inl ⟨rfl, rfl⟩⟩
      · exact ⟨q, Or.inr hq⟩
    · rintro ⟨q, ⟨-, rfl⟩ | hq⟩
      · exact Or.inl rfl
      · exact Or.inr ⟨q, hq⟩
  owner q r j hq hr := by
    rcases (hown q j).mp hq with ⟨rfl, rfl⟩ | hq
    · rcases (hown r j).mp hr with ⟨rfl, -⟩ | hr
      · rfl
      · exact absurd hr (h.not_owned hi r)
    · rcases (hown r j).mp hr with ⟨rfl, rfl⟩ | hr
      · exact absurd hq (h.not_owned hi q)
      · exact h.owner q r j hq hr
  nodup := hnodup
  apart := hapart

/-- The owner of a slot gives up its lock. -/
theorem release (h : Locks s) (hown : ∀ q j, t.Owns q j ↔ s.Owns q j ∧ j ≠ i)
    (hbusy : ∀ j, (t.slot j).busy = true ↔ j ≠ i ∧ (s.slot j).busy = true)
    (hheld : ∀ q j, j ≠ i → (q, j) ∈ s.held → (q, j) ∈ t.held)
    (hnodup : ∀ q, (t.locked q).Nodup) (hapart : ∀ q j, (t.pc q).lock = some j → j ∉ t.locked q) :
    Locks t where
  held q j hq := by
    obtain ⟨hq, hj⟩ := (hown q j).mp hq
    exact hheld q j hj (h.held q j hq)
  busy j := by
    rw [hbusy j, h.busy j]
    simp only [hown]
    constructor
    · rintro ⟨hj, q, hq⟩
      exact ⟨q, hq, hj⟩
    · rintro ⟨q, hq, hj⟩
      exact ⟨hj, q, hq⟩
  owner q r j hq hr := h.owner q r j ((hown q j).mp hq).1 ((hown r j).mp hr).1
  nodup := hnodup
  apart := hapart

end Locks

/-! ### Fields -/

namespace Fields

theorem booted (disk : UInt32 → UInt32 → Dinode) : Fields (booted disk) where
  valid p i h := by cases h
  synced i h := by cases h
  live i h := absurd h (Nat.lt_irrefl 0)

/-- A step that concerns slot `i` only. -/
theorem at_slot (h : Fields s) (i : Slot) (hslot : ∀ j, j ≠ i → t.slot j = s.slot j)
    (hsync : ∀ j, j ≠ i → t.synced j = s.synced j)
    (hdisk : ∀ j, j ≠ i → 0 < (s.slot j).ref →
      t.disk (s.slot j).dev (s.slot j).inum = s.disk (s.slot j).dev (s.slot j).inum)
    (hlocked : ∀ q j, j ≠ i → (j ∈ t.locked q ↔ j ∈ s.locked q))
    (hfinish : ∀ q j, j ≠ i → s.pc q = .finish j → t.pc q = .finish j)
    (hvalid : ∀ q, i ∈ t.locked q → (t.slot i).valid = true)
    (hsynced : t.synced i = false → ∃ q, i ∈ t.locked q)
    (hlive : 0 < (t.slot i).ref → (t.slot i).valid = true → (∀ q, t.pc q ≠ .finish i) →
      (t.disk (t.slot i).dev (t.slot i).inum).type ≠ 0 ∧ (t.slot i).node.type ≠ 0 ∧
        (t.synced i = true → (t.slot i).node = t.disk (t.slot i).dev (t.slot i).inum)) :
    Fields t where
  valid q j hj := by
    by_cases hji : j = i
    · subst hji
      exact hvalid q hj
    · rw [hslot j hji]
      exact h.valid q j ((hlocked q j hji).mp hj)
  synced j hj := by
    by_cases hji : j = i
    · subst hji
      exact hsynced hj
    · rw [hsync j hji] at hj
      obtain ⟨q, hq⟩ := h.synced j hj
      exact ⟨q, (hlocked q j hji).mpr hq⟩
  live j href hv hfin := by
    by_cases hji : j = i
    · subst hji
      exact hlive href hv hfin
    · rw [hslot j hji] at href hv ⊢
      rw [hdisk j hji href, hsync j hji]
      exact h.live j href hv fun q hq => hfin q (hfinish q j hji hq)

end Fields

/-- Writing back an inode leaves those of the other slots alone. -/
theorem Refs.writeBack_disk (h : Refs s) {j : Slot} (hi : 0 < (s.slot i).ref) (hji : j ≠ i)
    (hj : 0 < (s.slot j).ref) :
    (s.writeBack i).disk (s.slot j).dev (s.slot j).inum =
      s.disk (s.slot j).dev (s.slot j).inum := by
  simp only [writeBack]
  by_cases hdev : (s.slot j).dev = (s.slot i).dev
  · have hinum : (s.slot j).inum ≠ (s.slot i).inum := fun hinum => hji (h.uniq j i hj hi hdev hinum)
    rw [hdev, Function.update_self, Function.update_of_ne hinum]
  · rw [Function.update_of_ne hdev]

theorem writeBack_disk_self (s : Itable) (i : Slot) :
    (s.writeBack i).disk (s.slot i).dev (s.slot i).inum = (s.slot i).node := by
  simp [writeBack]

/-! ## Steps -/

namespace Kept

theorem booted (disk : UInt32 → UInt32 → Dinode) : Kept (booted disk) where
  refs := Refs.booted disk
  locks := Locks.booted disk
  fields := Fields.booted disk
  asleep p i h := by cases h

theorem ref_pos (h : Kept s) (hp : (p, i) ∈ s.held) : 0 < (s.slot i).ref := by
  rw [h.refs.count i, Itable.refs, List.countP_pos_iff]
  exact ⟨(p, i), hp, by simp⟩

theorem ref_pos_of_owns (h : Kept s) (hp : s.Owns p i) : 0 < (s.slot i).ref :=
  h.ref_pos (h.locks.held p i hp)

theorem addRef (h : Kept s) (p : Nat) (hi : 0 < (s.slot i).ref) : Kept (s.addRef p i) where
  refs := by
    refine h.refs.add rfl ?_
    rintro j hji hj ⟨hdev, hinum⟩
    exact hji (h.refs.uniq j i hj hi hdev hinum)
  locks := by
    refine h.locks.same (fun _ _ => Iff.rfl) ?_ ?_ h.locks.nodup h.locks.apart
    · intro j
      by_cases hji : j = i
      · subst hji
        simp [Itable.addRef]
      · simp [Itable.addRef, hji]
    · intro q j _ hq
      exact List.mem_cons_of_mem _ hq
  fields := by
    refine h.fields.at_slot i ?_ (fun _ _ => rfl) (fun _ _ _ => rfl) (fun _ _ _ => Iff.rfl)
      (fun _ _ _ hq => hq) ?_ (h.fields.synced i) ?_
    · intro j hji
      exact Function.update_of_ne hji _ _
    · intro q hq
      simpa [Itable.addRef] using h.fields.valid q i hq
    · intro _ hv hfin
      simp only [Itable.addRef, Function.update_self] at hv ⊢
      exact h.fields.live i hi hv hfin
  asleep q j hq := List.mem_cons_of_mem _ (h.asleep q j hq)

/-- A slot without references is not locked by anybody. -/
theorem not_owned_of_ref_zero (h : Kept s) (hi : (s.slot i).ref = 0) (p : Nat) : ¬ s.Owns p i := by
  intro hp
  have := h.ref_pos_of_owns hp
  omega

theorem iget (h : Kept s) (p : Nat) (dev inum : UInt32) : Kept (s.step (.iget p dev inum)) := by
  simp only [step]
  cases hc : s.cached dev inum with
  | some i =>
      have hi := List.find?_some hc
      simp only [decide_eq_true_eq] at hi
      exact h.addRef p hi.1
  | none =>
      cases he : s.empty with
      | none => exact h
      | some i =>
          have hzero : (s.slot i).ref = 0 := by simpa using List.find?_some he
          have hfree := h.not_owned_of_ref_zero hzero
          have hbusy : (s.slot i).busy = false := by
            by_contra hb
            obtain ⟨q, hq⟩ := (h.locks.busy i).mp (by simpa using hb)
            exact hfree q hq
          refine ⟨?_, ?_, ?_, ?_⟩
          · refine h.refs.add (by simp [hzero]) ?_
            rintro j hji hj ⟨hdev, hinum⟩
            have := List.find?_eq_none.mp hc j (List.mem_finRange j)
            simp [hj, hdev, hinum] at this
          · refine h.locks.same (fun _ _ => Iff.rfl) ?_ ?_ h.locks.nodup h.locks.apart
            · intro j
              by_cases hji : j = i
              · subst hji
                simp [hbusy]
              · simp [hji]
            · intro q j _ hq
              exact List.mem_cons_of_mem _ hq
          · refine h.fields.at_slot i ?_ (fun _ _ => rfl) (fun _ _ _ => rfl) (fun _ _ _ => Iff.rfl)
              (fun _ _ _ hq => hq) ?_ (h.fields.synced i) ?_
            · intro j hji
              exact Function.update_of_ne hji _ _
            · intro q hq
              exact absurd (Or.inl hq) (hfree q)
            · intro _ hv
              simp at hv
          · intro q j hq
            exact List.mem_cons_of_mem _ (h.asleep q j hq)

/-- The program counter of another process is untouched. -/
theorem update_pc_of_ne {pc : InodePc} {q : Nat} (hq : q ≠ p) :
    Function.update s.pc p pc q = s.pc q := Function.update_of_ne hq _ _

theorem lock_eq_none (hpc : s.pc p = .idle ∨ s.pc p = .ilock i) : (s.pc p).lock = none := by
  rcases hpc with hpc | hpc <;> rw [hpc] <;> rfl

theorem sleep (h : Kept s) (hpc : s.pc p = .idle ∨ s.pc p = .ilock i) (hp : (p, i) ∈ s.held) :
    Kept (s.setPc p (.ilock i)) where
  refs := h.refs.congr (fun _ => ⟨rfl, rfl, rfl⟩) rfl
  locks := by
    have hlock : ∀ q, ((s.setPc p (.ilock i)).pc q).lock = (s.pc q).lock := by
      intro q
      simp only [setPc]
      by_cases hq : q = p
      · subst hq
        rw [Function.update_self, lock_eq_none hpc]
        rfl
      · rw [update_pc_of_ne hq]
    refine h.locks.same ?_ (fun _ => rfl) (fun _ _ _ hq => hq) h.locks.nodup ?_
    · intro q j
      rw [Owns, Owns, hlock q]
      rfl
    · intro q j hq
      rw [hlock q] at hq
      exact h.locks.apart q j hq
  fields := by
    have hback : ∀ q j, s.pc q = .finish j → (s.setPc p (.ilock i)).pc q = .finish j := by
      intro q j hq
      have hqp : q ≠ p := by
        rintro rfl
        rcases hpc with hpc | hpc <;> rw [hpc] at hq <;> cases hq
      simpa only [setPc, update_pc_of_ne hqp] using hq
    refine ⟨h.fields.valid, h.fields.synced, ?_⟩
    intro j hj hv hfin
    exact h.fields.live j hj hv fun q hq => hfin q (hback q j hq)
  asleep q j hq := by
    by_cases hqp : q = p
    · subst hqp
      simp only [setPc, Function.update_self, InodePc.ilock.injEq] at hq
      exact hq ▸ hp
    · simp only [setPc, update_pc_of_ne hqp] at hq
      exact h.asleep q j hq

theorem not_finish_of_free (h : Kept s) (hi : (s.slot i).busy = false) (q : Nat) :
    s.pc q ≠ .finish i := by
  intro hq
  exact h.locks.not_owned hi q (Or.inr (by rw [hq]; rfl))

theorem setBusy_slot_of_ne {j : Slot} (b : Bool) (hji : j ≠ i) :
    (s.setBusy i b).slot j = s.slot j := Function.update_of_ne hji _ _

theorem setBusy_fields (b : Bool) (j : Slot) :
    ((s.setBusy i b).slot j).ref = (s.slot j).ref ∧ ((s.setBusy i b).slot j).dev = (s.slot j).dev ∧
      ((s.setBusy i b).slot j).inum = (s.slot j).inum ∧
      ((s.setBusy i b).slot j).valid = (s.slot j).valid ∧
      ((s.setBusy i b).slot j).node = (s.slot j).node := by
  by_cases hji : j = i
  · subst hji
    simp [setBusy]
  · rw [setBusy_slot_of_ne b hji]
    exact ⟨rfl, rfl, rfl, rfl, rfl⟩

theorem setBusy_true (hi : (s.slot i).busy = false) (j : Slot) :
    ((s.setBusy i true).slot j).busy = true ↔ j = i ∨ (s.slot j).busy = true := by
  by_cases hji : j = i
  · subst hji
    simp [setBusy]
  · rw [setBusy_slot_of_ne true hji]
    simp [hji]

/-- `ilock` returns at once. -/
theorem locked_now (h : Kept s) (hpc : s.pc p = .idle ∨ s.pc p = .ilock i) (hp : (p, i) ∈ s.held)
    (hbusy : (s.slot i).busy = false) (hvalid : (s.slot i).valid = true) :
    Kept { s.setBusy i true with
      pc := Function.update s.pc p .idle
      locked := Function.update s.locked p (i :: s.locked p) } := by
  have hfree := h.locks.not_owned hbusy
  have hnot : ∀ q, i ∉ s.locked q := fun q hq => hfree q (Or.inl hq)
  refine ⟨?_, ?_, ?_, ?_⟩
  · refine h.refs.congr (fun j => ?_) rfl
    obtain ⟨hr, hd, hn, -⟩ := setBusy_fields (s := s) (i := i) true j
    exact ⟨hr, hd, hn⟩
  · refine h.locks.take hbusy hp ?_ (setBusy_true hbusy) rfl ?_ ?_
    · intro q j
      by_cases hq : q = p
      · subst hq
        have hidle : InodePc.idle.lock = none := rfl
        simp [Owns, lock_eq_none hpc, hidle]
      · simp [Owns, hq]
    · intro q
      by_cases hq : q = p
      · subst hq
        simpa using ⟨hnot q, h.locks.nodup q⟩
      · simpa [hq] using h.locks.nodup q
    · intro q j hq
      by_cases hqp : q = p
      · subst hqp
        simp [InodePc.lock] at hq
      · simp only [update_pc_of_ne hqp] at hq
        simpa [hqp] using h.locks.apart q j hq
  · refine h.fields.at_slot i (fun j hji => setBusy_slot_of_ne true hji) (fun _ _ => rfl)
      (fun _ _ _ => rfl) ?_ ?_ ?_ ?_ ?_
    · intro q j hji
      by_cases hq : q = p
      · subst hq
        simp [hji]
      · simp [hq]
    · intro q j _ hq
      have hqp : q ≠ p := by
        rintro rfl
        rcases hpc with hpc | hpc <;> rw [hpc] at hq <;> cases hq
      simpa only [update_pc_of_ne hqp] using hq
    · intro q _
      simpa [setBusy] using hvalid
    · intro hs
      obtain ⟨q, hq⟩ := h.fields.synced i hs
      exact absurd hq (hnot q)
    · intro hr hv _
      obtain ⟨hr', hd, hn, hv', hnode⟩ := setBusy_fields (s := s) (i := i) true i
      simp only [hr', hd, hn, hv', hnode] at hr hv ⊢
      exact h.fields.live i hr hv (h.not_finish_of_free hbusy)
  · intro q j hq
    by_cases hqp : q = p
    · subst hqp
      simp at hq
    · simp only [update_pc_of_ne hqp] at hq
      exact h.asleep q j hq

/-- A process outside marks a slot busy and goes on inside a call: `ilock` on its way to the disk, and
`iput` on its way to free the inode. -/
theorem busy_in_call (h : Kept s) {pc : InodePc} (hpc : s.pc p = .idle ∨ s.pc p = .ilock i)
    (hp : (p, i) ∈ s.held) (hbusy : (s.slot i).busy = false) (hlock : pc.lock = some i) :
    Kept ((s.setBusy i true).setPc p pc) := by
  have hfree := h.locks.not_owned hbusy
  have hnot : ∀ q, i ∉ s.locked q := fun q hq => hfree q (Or.inl hq)
  refine ⟨?_, ?_, ?_, ?_⟩
  · refine h.refs.congr (fun j => ?_) rfl
    obtain ⟨hr, hd, hn, -⟩ := setBusy_fields (s := s) (i := i) true j
    exact ⟨hr, hd, hn⟩
  · refine h.locks.take hbusy hp ?_ (setBusy_true hbusy) rfl h.locks.nodup ?_
    · intro q j
      by_cases hq : q = p
      · subst hq
        simp [Owns, setPc, setBusy, lock_eq_none hpc, hlock, eq_comm, or_comm]
      · simp [Owns, setPc, setBusy, hq]
    · intro q j hq
      by_cases hqp : q = p
      · subst hqp
        simp only [setPc, Function.update_self, hlock, Option.some.injEq] at hq
        subst hq
        exact hnot q
      · simp only [setPc, setBusy, update_pc_of_ne hqp] at hq
        exact h.locks.apart q j hq
  · refine h.fields.at_slot i (fun j hji => setBusy_slot_of_ne true hji) (fun _ _ => rfl)
      (fun _ _ _ => rfl) (fun _ _ _ => Iff.rfl) ?_ ?_ ?_ ?_
    · intro q j _ hq
      have hqp : q ≠ p := by
        rintro rfl
        rcases hpc with hpc | hpc <;> rw [hpc] at hq <;> cases hq
      simpa only [setPc, setBusy, update_pc_of_ne hqp] using hq
    · intro q hq
      exact absurd hq (hnot q)
    · intro hs
      exact h.fields.synced i hs
    · intro hr hv _
      obtain ⟨hr', hd, hn, hv', hnode⟩ := setBusy_fields (s := s) (i := i) true i
      simp only [setPc, hr', hd, hn, hv', hnode] at hr hv ⊢
      exact h.fields.live i hr hv (h.not_finish_of_free hbusy)
  · intro q j hq
    by_cases hqp : q = p
    · subst hqp
      simp only [setPc, Function.update_self] at hq
      rw [hq] at hlock
      cases hlock
    · simp only [setPc, setBusy, update_pc_of_ne hqp] at hq
      exact h.asleep q j hq

theorem lockSlot (h : Kept s) (hpc : s.pc p = .idle ∨ s.pc p = .ilock i) (hp : (p, i) ∈ s.held) :
    Kept (s.lockSlot p i) := by
  unfold Itable.lockSlot
  split
  · exact h.sleep hpc hp
  · rename_i hbusy
    have hbusy : (s.slot i).busy = false := by simpa using hbusy
    split
    · rename_i hvalid
      exact h.locked_now hpc hp hbusy hvalid
    · exact h.busy_in_call hpc hp hbusy rfl

/-- `ilock` has read the inode. -/
theorem fetched (h : Kept s)
    (hok : ∀ i, s.pc p = .fetch i → (s.disk (s.slot i).dev (s.slot i).inum).type ≠ 0) :
    Kept (s.step (.fetched p)) := by
  simp only [step]
  cases hpc : s.pc p with
  | fetch i =>
      have hlock : (s.pc p).lock = some i := by rw [hpc]; rfl
      have hown : s.Owns p i := Or.inr hlock
      have hnot := h.locks.apart p i hlock
      have htype := hok i hpc
      refine ⟨?_, ?_, ?_, ?_⟩
      · refine h.refs.congr (fun j => ?_) rfl
        by_cases hji : j = i
        · subst hji
          simp
        · simp [hji]
      · refine h.locks.same ?_ ?_ (fun _ _ _ hq => hq) ?_ ?_
        · intro q j
          by_cases hq : q = p
          · subst hq
            have hidle : InodePc.idle.lock = none := rfl
            simp [Owns, hlock, hidle, eq_comm, or_comm]
          · simp [Owns, hq]
        · intro j
          by_cases hji : j = i
          · subst hji
            simp
          · simp [hji]
        · intro q
          by_cases hq : q = p
          · subst hq
            simpa using ⟨hnot, h.locks.nodup q⟩
          · simpa [hq] using h.locks.nodup q
        · intro q j hq
          by_cases hqp : q = p
          · subst hqp
            simp [InodePc.lock] at hq
          · simp only [update_pc_of_ne hqp] at hq
            simpa [hqp] using h.locks.apart q j hq
      · refine h.fields.at_slot i (fun j hji => Function.update_of_ne hji _ _) (fun _ _ => rfl)
          (fun _ _ _ => rfl) ?_ ?_ ?_ ?_ ?_
        · intro q j hji
          by_cases hq : q = p
          · subst hq
            simp [hji]
          · simp [hq]
        · intro q j _ hq
          have hqp : q ≠ p := by
            rintro rfl
            rw [hpc] at hq
            cases hq
          simpa only [update_pc_of_ne hqp] using hq
        · intro q _
          simp
        · intro _
          exact ⟨p, by simp⟩
        · intro _ _ _
          simpa using htype
      · intro q j hq
        by_cases hqp : q = p
        · subst hqp
          simp at hq
        · simp only [update_pc_of_ne hqp] at hq
          exact h.asleep q j hq
  | idle => exact h
  | ilock i => exact h
  | trunc i => exact h
  | erase i => exact h
  | finish i => exact h

/-- The owner of a slot changes its fields or its inode on the disk, and nothing else. -/
theorem at_owned (h : Kept s) (hown : s.Owns p i)
    (hslot : ∀ j, j ≠ i → t.slot j = s.slot j) (hsync : ∀ j, j ≠ i → t.synced j = s.synced j)
    (hid : (t.slot i).ref = (s.slot i).ref ∧ (t.slot i).dev = (s.slot i).dev ∧
      (t.slot i).inum = (s.slot i).inum ∧ (t.slot i).busy = (s.slot i).busy ∧
      (t.slot i).valid = (s.slot i).valid)
    (hdisk : ∀ j, j ≠ i → 0 < (s.slot j).ref →
      t.disk (s.slot j).dev (s.slot j).inum = s.disk (s.slot j).dev (s.slot j).inum)
    (hheld : t.held = s.held) (hlocked : t.locked = s.locked)
    (hpc : ∀ q, q ≠ p → t.pc q = s.pc q) (hlock : (t.pc p).lock = (s.pc p).lock)
    (hwas : ∀ j, s.pc p = .finish j → j = i) (hasleep : ∀ j, t.pc p = .ilock j → s.pc p = .ilock j)
    (hsynced : t.synced i = false → i ∈ s.locked p)
    (hlive : (s.slot i).valid = true → (∀ q, t.pc q ≠ .finish i) →
      (t.disk (s.slot i).dev (s.slot i).inum).type ≠ 0 ∧ (t.slot i).node.type ≠ 0 ∧
        (t.synced i = true → (t.slot i).node = t.disk (s.slot i).dev (s.slot i).inum)) :
    Kept t := by
  have hlocks : ∀ q, (t.pc q).lock = (s.pc q).lock := by
    intro q
    by_cases hq : q = p
    · subst hq
      exact hlock
    · rw [hpc q hq]
  obtain ⟨href, hdev, hinum, hbusy, hvalid⟩ := hid
  refine ⟨?_, ?_, ?_, ?_⟩
  · refine h.refs.congr (fun j => ?_) hheld
    by_cases hji : j = i
    · subst hji
      exact ⟨href, hdev, hinum⟩
    · rw [hslot j hji]
      exact ⟨rfl, rfl, rfl⟩
  · refine h.locks.same ?_ ?_ (fun _ _ _ hq => hheld ▸ hq) ?_ ?_
    · intro q j
      rw [Owns, Owns, hlocks q, hlocked]
    · intro j
      by_cases hji : j = i
      · subst hji
        exact hbusy
      · rw [hslot j hji]
    · intro q
      rw [hlocked]
      exact h.locks.nodup q
    · intro q j hq
      rw [hlocks q] at hq
      rw [hlocked]
      exact h.locks.apart q j hq
  · refine h.fields.at_slot i hslot hsync hdisk ?_ ?_ ?_ ?_ ?_
    · intro q j _
      rw [hlocked]
    · intro q j hji hq
      by_cases hqp : q = p
      · subst hqp
        exact absurd (hwas j hq) hji
      · rw [hpc q hqp]
        exact hq
    · intro q hq
      rw [hlocked] at hq
      rw [hvalid]
      exact h.fields.valid q i hq
    · intro hs
      exact ⟨p, by rw [hlocked]; exact hsynced hs⟩
    · intro _ hv hfin
      rw [hvalid] at hv
      rw [hdev, hinum]
      exact hlive hv hfin
  · intro q j hq
    rw [hheld]
    by_cases hqp : q = p
    · subst hqp
      exact h.asleep q j (hasleep j hq)
    · rw [hpc q hqp] at hq
      exact h.asleep q j hq

theorem not_finish_of_locked (h : Kept s) (hi : i ∈ s.locked p) (q : Nat) : s.pc q ≠ .finish i := by
  intro hq
  have hlock : (s.pc q).lock = some i := by rw [hq]; rfl
  have hqp : q = p := h.locks.owner q p i (Or.inr hlock) (Or.inl hi)
  subst hqp
  exact h.locks.apart q i hlock hi

theorem modify (h : Kept s) {node : Dinode} (hpc : s.pc p = .idle) (hi : i ∈ s.locked p)
    (htype : node.type ≠ 0) : Kept (s.step (.modify p i node)) := by
  have hlive := h.fields.live i (h.ref_pos_of_owns (Or.inl hi)) (h.fields.valid p i hi)
    (h.not_finish_of_locked hi)
  refine h.at_owned (p := p) (i := i) (Or.inl hi) ?_ ?_ ?_ (fun _ _ _ => rfl) rfl rfl (fun _ _ => rfl) rfl
    ?_ (fun _ hj => hj) (fun _ => hi) ?_
  · intro j hji
    exact Function.update_of_ne hji _ _
  · intro j hji
    exact Function.update_of_ne hji _ _
  · simp [step, setNode]
  · intro j hj
    rw [hpc] at hj
    cases hj
  · intro _ _
    refine ⟨hlive.1, ?_, ?_⟩
    · simpa [step, setNode] using htype
    · intro hs
      simp [step] at hs

theorem iupdate (h : Kept s) (hpc : s.pc p = .idle) (hi : i ∈ s.locked p) :
    Kept (s.step (.iupdate p i)) := by
  have hpos := h.ref_pos_of_owns (Or.inl hi)
  have hlive := h.fields.live i hpos (h.fields.valid p i hi) (h.not_finish_of_locked hi)
  refine h.at_owned (p := p) (i := i) (Or.inl hi) (fun _ _ => rfl) ?_ ⟨rfl, rfl, rfl, rfl, rfl⟩ ?_ rfl rfl
    (fun _ _ => rfl) rfl ?_ (fun _ hj => hj) (fun _ => hi) ?_
  · intro j hji
    exact Function.update_of_ne hji _ _
  · intro j hji hj
    exact h.refs.writeBack_disk hpos hji hj
  · intro j hj
    rw [hpc] at hj
    cases hj
  · intro _ _
    simp only [step]
    rw [writeBack_disk_self]
    exact ⟨hlive.2.1, hlive.2.1, fun _ => rfl⟩

theorem not_locked_of_owner (h : Kept s) (hlock : (s.pc p).lock = some i) (q : Nat) :
    i ∉ s.locked q := by
  intro hq
  have hqp : q = p := h.locks.owner q p i (Or.inl hq) (Or.inr hlock)
  subst hqp
  exact h.locks.apart q i hlock hq

theorem iunlock (h : Kept s) (hpc : s.pc p = .idle) (hi : i ∈ s.locked p)
    (hsync : s.synced i = true) : Kept (s.step (.iunlock p i)) := by
  have hother : ∀ q, q ≠ p → i ∉ s.locked q := by
    intro q hq hmem
    exact hq (h.locks.owner q p i (Or.inl hmem) (Or.inl hi))
  have hgone : ∀ q, i ∉ (s.step (.iunlock p i)).locked q := by
    intro q
    simp only [step]
    by_cases hq : q = p
    · subst hq
      simp [(h.locks.nodup q).mem_erase_iff]
    · rw [Function.update_of_ne hq]
      exact hother q hq
  refine ⟨?_, ?_, ?_, h.asleep⟩
  · refine h.refs.congr (fun j => ?_) rfl
    obtain ⟨hr, hd, hn, -⟩ := setBusy_fields (s := s) (i := i) false j
    exact ⟨hr, hd, hn⟩
  · refine h.locks.release (i := i) ?_ ?_ (fun _ _ _ hq => hq) ?_ ?_
    · intro q j
      simp only [Owns, step]
      by_cases hq : q = p
      · subst hq
        have hidle : InodePc.idle.lock = none := rfl
        simp [setBusy, hpc, hidle, (h.locks.nodup q).mem_erase_iff, and_comm]
      · have hne : s.Owns q j → j ≠ i := by
          rintro hqj rfl
          exact hq (h.locks.owner q p j hqj (Or.inl hi))
        rw [Function.update_of_ne hq]
        exact ⟨fun hqj => ⟨hqj, hne hqj⟩, And.left⟩
    · intro j
      simp only [step]
      by_cases hji : j = i
      · subst hji
        simp [setBusy]
      · rw [setBusy_slot_of_ne false hji]
        simp [hji]
    · intro q
      simp only [step]
      by_cases hq : q = p
      · subst hq
        simpa using (h.locks.nodup q).erase i
      · rw [Function.update_of_ne hq]
        exact h.locks.nodup q
    · intro q j hq
      have hq' := h.locks.apart q j hq
      simp only [step]
      by_cases hqp : q = p
      · subst hqp
        intro hmem
        simp only [Function.update_self] at hmem
        exact hq' (List.mem_of_mem_erase hmem)
      · rw [Function.update_of_ne hqp]
        exact hq'
  · refine h.fields.at_slot i (fun j hji => setBusy_slot_of_ne false hji) (fun _ _ => rfl)
      (fun _ _ _ => rfl) ?_ (fun _ _ _ hq => hq) (fun q hq => absurd hq (hgone q)) ?_ ?_
    · intro q j hji
      simp only [step]
      by_cases hq : q = p
      · subst hq
        simp [List.mem_erase_of_ne hji]
      · simp [hq]
    · intro hs
      exact absurd (hsync.symm.trans hs) (by decide)
    · intro hr hv hfin
      obtain ⟨hr', hd, hn, hv', hnode⟩ := setBusy_fields (s := s) (i := i) false i
      simp only [step, hr', hd, hn, hv', hnode] at hr hv ⊢
      exact h.fields.live i hr hv hfin

/-- `iput` drops a reference that is not the last one, or whose inode is not to be freed. -/
theorem dropRef (h : Kept s) (hpc : s.pc p = .idle) (hp : (p, i) ∈ s.held) (hi : i ∉ s.locked p) :
    Kept (s.dropRef p i) := by
  have hnot : ∀ j, s.Owns p j → j ≠ i := by
    rintro j (hj | hj) rfl
    · exact hi hj
    · rw [hpc] at hj
      cases hj
  refine ⟨h.refs.drop rfl ⟨rfl, rfl⟩ hp, ?_, ?_, ?_⟩
  · refine h.locks.same (fun _ _ => Iff.rfl) ?_ ?_ h.locks.nodup h.locks.apart
    · intro j
      simp only [Itable.dropRef]
      by_cases hji : j = i
      · subst hji
        simp
      · simp [hji]
    · intro q j hq hmem
      have hne : (q, j) ≠ (p, i) := by
        intro heq
        cases heq
        exact hnot i hq rfl
      exact (List.mem_erase_of_ne hne).mpr hmem
  · refine h.fields.at_slot i (fun j hji => Function.update_of_ne hji _ _) (fun _ _ => rfl)
      (fun _ _ _ => rfl) (fun _ _ _ => Iff.rfl) (fun _ _ _ hq => hq) ?_ (h.fields.synced i) ?_
    · intro q hq
      simpa [Itable.dropRef] using h.fields.valid q i hq
    · intro hr hv hfin
      simp only [Itable.dropRef, Function.update_self] at hr hv ⊢
      exact h.fields.live i (by omega) hv hfin
  · intro q j hq
    have hne : (q, j) ≠ (p, i) := by
      intro heq
      cases heq
      have hq' : s.pc p = .ilock i := hq
      rw [hpc] at hq'
      cases hq'
    exact (List.mem_erase_of_ne hne).mpr (h.asleep q j hq)

/-- **The panic "iput busy" is unreachable**: the owner of the lock holds a reference, so it would be
the process that drops the last one, which has unlocked the inode. -/
theorem not_busy_of_frees (h : Kept s) (hpc : s.pc p = .idle) (hp : (p, i) ∈ s.held)
    (hi : i ∉ s.locked p) (hfrees : s.Frees i) : (s.slot i).busy = false := by
  by_contra hbusy
  obtain ⟨q, hq⟩ := (h.locks.busy i).mp (by simpa using hbusy)
  have hone : s.held.countP (fun r => r.2 = i) = 1 := by
    have hcount := h.refs.count i
    rw [hfrees.1] at hcount
    exact hcount.symm
  have hqp : q = p := by
    by_contra hne
    have hsplit := List.perm_cons_erase hp
    have hrest : (q, i) ∈ s.held.erase (p, i) :=
      (List.mem_erase_of_ne (by simp [hne])).mpr (h.locks.held q i hq)
    rw [hsplit.countP_eq, List.countP_cons] at hone
    have hpos : 0 < (s.held.erase (p, i)).countP fun r => r.2 = i :=
      List.countP_pos_iff.mpr ⟨(q, i), hrest, by simp⟩
    rw [if_pos (by simp)] at hone
    omega
  subst hqp
  rcases hq with hq | hq
  · exact hi hq
  · rw [hpc] at hq
    cases hq

theorem iput (h : Kept s) (hpc : s.pc p = .idle) (hp : (p, i) ∈ s.held) (hi : i ∉ s.locked p) :
    Kept (s.step (.iput p i)) := by
  simp only [step]
  split
  · rename_i hfrees
    exact h.busy_in_call (Or.inl hpc) hp (h.not_busy_of_frees hpc hp hi hfrees) rfl
  · exact h.dropRef hpc hp hi

/-- A process inside `iput` writes the fields it has changed back to the disk. -/
theorem rewrite (h : Kept s) {node : Dinode} {pc : InodePc} (hlock : (s.pc p).lock = some i)
    (hwas : s.pc p ≠ .finish i) (hlock' : pc.lock = some i)
    (htype : pc = .finish i ∨ ((s.slot i).node.type ≠ 0 → node.type ≠ 0)) :
    Kept (((s.setNode i node).writeBack i).setPc p pc) := by
  have hown : s.Owns p i := Or.inr hlock
  have hpos := h.ref_pos_of_owns hown
  have hslot : ∀ j, j ≠ i → (s.setNode i node).slot j = s.slot j := by
    intro j hji
    exact Function.update_of_ne hji _ _
  have hself : (s.setNode i node).slot i = { s.slot i with node := node } := by simp [setNode]
  have hrefs : Refs (s.setNode i node) := by
    refine h.refs.congr (fun j => ?_) rfl
    by_cases hji : j = i
    · subst hji
      rw [hself]
      exact ⟨rfl, rfl, rfl⟩
    · rw [hslot j hji]
      exact ⟨rfl, rfl, rfl⟩
  refine h.at_owned (p := p) (i := i) hown hslot ?_ ?_ ?_ rfl rfl ?_ ?_ ?_ ?_ ?_ ?_
  · intro j hji
    exact Function.update_of_ne hji _ _
  · simp [setPc, writeBack, setNode]
  · intro j hji hj
    have hwrite := hrefs.writeBack_disk (i := i) (j := j) (by rw [hself]; exact hpos) hji
      (by rw [hslot j hji]; exact hj)
    rw [hslot j hji] at hwrite
    exact hwrite
  · intro q hq
    exact Function.update_of_ne hq _ _
  · simp [setPc, hlock, hlock']
  · intro j hj
    rw [hj] at hlock
    exact Option.some.inj hlock
  · intro j hj
    simp only [setPc, Function.update_self] at hj
    rw [hj] at hlock'
    cases hlock'
  · intro hs
    simp [setPc, writeBack] at hs
  · intro hv hfin
    have hdisk : (((s.setNode i node).writeBack i).setPc p pc).disk (s.slot i).dev (s.slot i).inum =
        node := by
      have := writeBack_disk_self (s.setNode i node) i
      rw [hself] at this
      exact this
    have hnode : ((((s.setNode i node).writeBack i).setPc p pc).slot i).node = node := by
      simp [setPc, writeBack, setNode]
    have hnot : ∀ q, s.pc q ≠ .finish i := by
      intro q hq
      have hqp : q = p := h.locks.owner q p i (Or.inr (by rw [hq]; rfl)) hown
      subst hqp
      exact hwas hq
    rcases htype with rfl | htype
    · exact absurd (by simp [setPc]) (hfin p)
    · rw [hdisk, hnode]
      have hold := h.fields.live i hpos hv hnot
      exact ⟨htype hold.2.1, htype hold.2.1, fun _ => rfl⟩

theorem truncated (h : Kept s) (p : Nat) : Kept (s.step (.truncated p)) := by
  simp only [step]
  cases hpc : s.pc p with
  | trunc i =>
      refine h.rewrite (by rw [hpc]; rfl) (by rw [hpc]; simp) rfl (Or.inr fun ht => ?_)
      exact ht
  | idle => exact h
  | ilock i => exact h
  | fetch i => exact h
  | erase i => exact h
  | finish i => exact h

theorem erased (h : Kept s) (p : Nat) : Kept (s.step (.erased p)) := by
  simp only [step]
  cases hpc : s.pc p with
  | erase i => exact h.rewrite (by rw [hpc]; rfl) (by rw [hpc]; simp) rfl (Or.inl rfl)
  | idle => exact h
  | ilock i => exact h
  | fetch i => exact h
  | trunc i => exact h
  | finish i => exact h

theorem finished (h : Kept s) (p : Nat) : Kept (s.step (.finished p)) := by
  simp only [step]
  cases hpc : s.pc p with
  | finish i =>
      have hlock : (s.pc p).lock = some i := by rw [hpc]; rfl
      have hown : s.Owns p i := Or.inr hlock
      have hheld := h.locks.held p i hown
      have hnot := h.not_locked_of_owner hlock
      have hidle : InodePc.idle.lock = none := rfl
      simp only [setPc, Itable.dropRef, Function.update_self, Function.update_idem]
      refine ⟨?_, ?_, ?_, ?_⟩
      · have hdrop := h.refs.drop (i := i)
          (x := { s.slot i with ref := (s.slot i).ref - 1, busy := false, valid := false })
          rfl ⟨rfl, rfl⟩ hheld
        exact ⟨hdrop.uniq, hdrop.count⟩
      · refine h.locks.release (i := i) ?_ ?_ ?_ h.locks.nodup ?_
        · intro q j
          by_cases hq : q = p
          · subst hq
            have hmem : j ∈ s.locked q → j ≠ i := by
              rintro hj rfl
              exact hnot q hj
            simp only [Owns, Function.update_self, hidle, hlock, Option.some.injEq]
            constructor
            · rintro (hj | hj)
              · exact ⟨Or.inl hj, hmem hj⟩
              · cases hj
            · rintro ⟨hj | rfl, hji⟩
              · exact Or.inl hj
              · exact absurd rfl hji
          · have hne : s.Owns q j → j ≠ i := by
              rintro hqj rfl
              exact hq (h.locks.owner q p j hqj hown)
            simp only [Owns, update_pc_of_ne hq]
            exact ⟨fun hqj => ⟨hqj, hne hqj⟩, And.left⟩
        · intro j
          by_cases hji : j = i
          · subst hji
            simp
          · simp [hji]
        · intro q j hji hq
          have hne : (q, j) ≠ (p, i) := by
            intro heq
            cases heq
            exact hji rfl
          exact (List.mem_erase_of_ne hne).mpr hq
        · intro q j hq
          by_cases hqp : q = p
          · subst hqp
            simp [hidle] at hq
          · simp only [update_pc_of_ne hqp] at hq
            exact h.locks.apart q j hq
      · refine h.fields.at_slot i (fun j hji => Function.update_of_ne hji _ _) (fun _ _ => rfl)
          (fun _ _ _ => rfl) (fun _ _ _ => Iff.rfl) ?_ (fun q hq => absurd hq (hnot q))
          (h.fields.synced i) ?_
        · intro q j hji hq
          have hqp : q ≠ p := by
            rintro rfl
            rw [hpc] at hq
            cases hq
            exact hji rfl
          simpa only [update_pc_of_ne hqp] using hq
        · intro _ hv
          simp at hv
      · intro q j hq
        have hqp : q ≠ p := by
          rintro rfl
          simp at hq
        simp only [update_pc_of_ne hqp] at hq
        have hne : (q, j) ≠ (p, i) := by
          intro heq
          cases heq
          exact hqp rfl
        exact (List.mem_erase_of_ne hne).mpr (h.asleep q j hq)
  | idle => exact h
  | ilock i => exact h
  | fetch i => exact h
  | trunc i => exact h
  | erase i => exact h

/-- `ialloc` takes an inode whose type is 0 on the disk: no slot has its fields, but one about to be
marked as not valid. -/
theorem ialloc (h : Kept s) {dev inum : UInt32} {type : Int16} (hfree : (s.disk dev inum).type = 0) :
    Kept (s.step (.ialloc dev inum type)) where
  refs := h.refs.congr (fun _ => ⟨rfl, rfl, rfl⟩) rfl
  locks := h.locks.same (fun _ _ => Iff.rfl) (fun _ => rfl) (fun _ _ _ hq => hq) h.locks.nodup
    h.locks.apart
  fields := by
    refine ⟨h.fields.valid, h.fields.synced, ?_⟩
    intro j hr hv hfin
    have hold := h.fields.live j hr hv hfin
    have hother : ¬ ((s.slot j).dev = dev ∧ (s.slot j).inum = inum) := by
      rintro ⟨rfl, rfl⟩
      exact hold.1 hfree
    have hdisk : (s.step (.ialloc dev inum type)).disk (s.slot j).dev (s.slot j).inum =
        s.disk (s.slot j).dev (s.slot j).inum := by
      simp only [step]
      by_cases hdev : (s.slot j).dev = dev
      · have hinum : (s.slot j).inum ≠ inum := fun hinum => hother ⟨hdev, hinum⟩
        rw [hdev, Function.update_self, Function.update_of_ne hinum]
      · rw [Function.update_of_ne hdev]
    have hslot : (s.step (.ialloc dev inum type)).slot = s.slot := rfl
    rw [hslot, hdisk]
    exact hold
  asleep := h.asleep

theorem step {st : InodeStep} (h : Kept s) (hok : s.Admits st) : Kept (s.step st) := by
  cases st with
  | iget p dev inum => exact h.iget p dev inum
  | idup p i => exact h.addRef p (h.ref_pos hok.2)
  | ilock p i => exact h.lockSlot (Or.inl hok.1) hok.2
  | retry p =>
      cases hpc : s.pc p with
      | ilock i =>
          simp only [Itable.step, hpc]
          exact h.lockSlot (Or.inr hpc) (h.asleep p i hpc)
      | idle => simpa only [Itable.step, hpc] using h
      | fetch i => simpa only [Itable.step, hpc] using h
      | trunc i => simpa only [Itable.step, hpc] using h
      | erase i => simpa only [Itable.step, hpc] using h
      | finish i => simpa only [Itable.step, hpc] using h
  | fetched p => exact h.fetched hok
  | modify p i node => exact h.modify hok.1 hok.2.1 hok.2.2
  | iupdate p i => exact h.iupdate hok.1 hok.2
  | iunlock p i => exact h.iunlock hok.1 hok.2.1 hok.2.2
  | iput p i => exact h.iput hok.1 hok.2.1 hok.2.2
  | truncated p => exact h.truncated p
  | erased p => exact h.erased p
  | finished p => exact h.finished p
  | ialloc dev inum type => exact h.ialloc hok.1

end Kept

/-! ## Runs -/

theorem lockSlot_ids (s : Itable) (p : Nat) (i j : Slot) :
    ((s.lockSlot p i).slot j).dev = (s.slot j).dev ∧
      ((s.lockSlot p i).slot j).inum = (s.slot j).inum := by
  obtain ⟨-, hd, hn, -⟩ := Kept.setBusy_fields (s := s) (i := i) true j
  unfold lockSlot
  split
  · exact ⟨rfl, rfl⟩
  · split <;> exact ⟨hd, hn⟩

/-- No step gives a slot with references to another inode. -/
theorem step_ids (s : Itable) (st : InodeStep) {i : Slot} (hi : 0 < (s.slot i).ref) :
    ((s.step st).slot i).dev = (s.slot i).dev ∧ ((s.step st).slot i).inum = (s.slot i).inum := by
  have hset : ∀ (j : Slot) (x : InodeSlot), x.dev = (s.slot j).dev → x.inum = (s.slot j).inum →
      (Function.update s.slot j x i).dev = (s.slot i).dev ∧
        (Function.update s.slot j x i).inum = (s.slot i).inum := by
    intro j x hdev hinum
    by_cases hij : i = j
    · subst hij
      simpa using ⟨hdev, hinum⟩
    · simp [hij]
  cases st with
  | iget p dev inum =>
      simp only [step]
      cases s.cached dev inum with
      | some j => exact hset j _ rfl rfl
      | none =>
          cases he : s.empty with
          | none => exact ⟨rfl, rfl⟩
          | some j =>
              -- the slot that is taken has no references
              have hzero : (s.slot j).ref = 0 := by simpa using List.find?_some he
              have hij : i ≠ j := by
                rintro rfl
                omega
              simp [hij]
  | idup p j => exact hset j _ rfl rfl
  | ilock p j => exact lockSlot_ids s p j i
  | retry p =>
      simp only [step]
      split
      · exact lockSlot_ids s p _ i
      · exact ⟨rfl, rfl⟩
  | fetched p =>
      simp only [step]
      split
      · exact hset _ _ rfl rfl
      · exact ⟨rfl, rfl⟩
  | modify p j node => exact hset j _ rfl rfl
  | iupdate p j => exact ⟨rfl, rfl⟩
  | iunlock p j => exact hset j _ rfl rfl
  | iput p j =>
      simp only [step]
      split
      · exact hset j _ rfl rfl
      · exact hset j _ rfl rfl
  | truncated p =>
      simp only [step]
      split
      · exact hset _ _ rfl rfl
      · exact ⟨rfl, rfl⟩
  | erased p =>
      simp only [step]
      split
      · exact hset _ _ rfl rfl
      · exact ⟨rfl, rfl⟩
  | finished p =>
      simp only [step]
      split
      · simp only [setPc, dropRef, Function.update_self, Function.update_idem]
        exact hset _ _ rfl rfl
      · exact ⟨rfl, rfl⟩
  | ialloc dev inum type => exact ⟨rfl, rfl⟩

/-- A turn of `ilock` that returns: the inode was not busy, so nobody had changed its fields. -/
theorem Kept.lockSlot_synced (h : Kept s) {j : Slot} (hi : i ∉ s.locked p)
    (hl : i ∈ (s.lockSlot p j).locked p) : (s.lockSlot p j).synced i = true := by
  have hsync : (s.lockSlot p j).synced = s.synced := by
    unfold Itable.lockSlot
    split
    · rfl
    · split <;> rfl
  rw [hsync]
  unfold Itable.lockSlot at hl
  split at hl
  · exact absurd hl hi
  · rename_i hbusy
    split at hl
    · simp only [Function.update_self, List.mem_cons] at hl
      rcases hl with rfl | hl
      · by_contra hs
        obtain ⟨q, hq⟩ := h.fields.synced i (by simpa using hs)
        exact hbusy ((h.locks.busy i).mpr ⟨q, Or.inl hq⟩)
      · exact absurd hl hi
    · exact absurd hl hi

/-- The steps by which `ilock` returns leave the fields as they were read or written last. -/
theorem Kept.synced_of_locked (h : Kept s) {st : InodeStep} (hi : i ∉ s.locked p)
    (hl : i ∈ (s.step st).locked p) : (s.step st).synced i = true := by
  have hsame : (s.step st).locked = s.locked → False := by
    intro heq
    rw [heq] at hl
    exact hi hl
  -- a step of another process, or of this one on another inode, locks nothing for it
  have hother : ∀ (q : Nat) (l : List Slot), q ≠ p → i ∉ Function.update s.locked q l p := by
    intro q l hq
    rwa [Function.update_of_ne (Ne.symm hq)]
  cases st with
  | iget q dev inum =>
      refine absurd ?_ hsame
      simp only [Itable.step]
      cases s.cached dev inum with
      | some j => rfl
      | none => cases s.empty <;> rfl
  | idup q j => exact absurd rfl hsame
  | ilock q j =>
      by_cases hq : q = p
      · subst hq
        exact h.lockSlot_synced hi hl
      · simp only [Itable.step, Itable.lockSlot] at hl
        split at hl
        · exact absurd hl hi
        · split at hl
          · exact absurd hl (hother q _ hq)
          · exact absurd hl hi
  | retry q =>
      simp only [Itable.step] at hl ⊢
      split at hl
      · rename_i j hpc
        by_cases hq : q = p
        · subst hq
          exact h.lockSlot_synced hi hl
        · simp only [Itable.lockSlot] at hl
          split at hl
          · exact absurd hl hi
          · split at hl
            · exact absurd hl (hother q _ hq)
            · exact absurd hl hi
      · exact absurd hl hi
  | fetched q =>
      simp only [Itable.step] at hl ⊢
      split at hl
      · rename_i j hpc
        by_cases hq : q = p
        · subst hq
          simp only [Function.update_self, List.mem_cons] at hl
          rcases hl with rfl | hl
          · by_contra hs
            obtain ⟨r, hr⟩ := h.fields.synced i (by simpa using hs)
            exact h.not_locked_of_owner (p := q) (by rw [hpc]; rfl) r hr
          · exact absurd hl hi
        · exact absurd hl (hother q _ hq)
      · exact absurd hl hi
  | modify q j node => exact absurd rfl hsame
  | iupdate q j => exact absurd rfl hsame
  | iunlock q j =>
      simp only [Itable.step] at hl
      by_cases hq : q = p
      · subst hq
        rw [Function.update_self] at hl
        exact absurd (List.mem_of_mem_erase hl) hi
      · exact absurd hl (hother q _ hq)
  | iput q j =>
      refine absurd ?_ hsame
      simp only [Itable.step]
      split <;> rfl
  | truncated q =>
      refine absurd ?_ hsame
      simp only [Itable.step]
      split <;> rfl
  | erased q =>
      refine absurd ?_ hsame
      simp only [Itable.step]
      split <;> rfl
  | finished q =>
      refine absurd ?_ hsame
      simp only [Itable.step]
      split <;> rfl
  | ialloc dev inum type => exact absurd rfl hsame

/-- **The table of in-core inodes.**  In every state that the processes can reach, whatever their
interleaving: a referenced inode has one slot, the counts are the numbers of references, a busy inode
has exactly one owner, no step gives a referenced slot to another inode, `iput` never finds the inode
busy that it is about to free, and when `ilock` returns, the fields are those of the inode on the
disk. -/
theorem itable_kept {disk : UInt32 → UInt32 → Dinode} {sts : List InodeStep} {s : Itable}
    (h : Run step Admits (booted disk) sts s) :
    (∀ i j, 0 < (s.slot i).ref → 0 < (s.slot j).ref → (s.slot i).dev = (s.slot j).dev →
        (s.slot i).inum = (s.slot j).inum → i = j) ∧
      (∀ i, (s.slot i).ref = s.refs i) ∧
      (∀ i, (s.slot i).busy = true → ∃! p, s.Owns p i) ∧
      (∀ st i, s.Admits st → 0 < (s.slot i).ref →
        ((s.step st).slot i).dev = (s.slot i).dev ∧ ((s.step st).slot i).inum = (s.slot i).inum) ∧
      (∀ p i, s.Admits (.iput p i) → s.Frees i → (s.slot i).busy = false) ∧
      ∀ st p i, s.Admits st → i ∉ s.locked p → i ∈ (s.step st).locked p →
        ((s.step st).slot i).node =
          (s.step st).disk ((s.step st).slot i).dev ((s.step st).slot i).inum := by
  have hs : Kept s := h.invariant (fun _ _ hs hok => hs.step hok) (Kept.booted disk)
  refine ⟨hs.refs.uniq, hs.refs.count, ?_, fun st i _ hi => step_ids s st hi, ?_, ?_⟩
  · intro i hi
    obtain ⟨p, hp⟩ := (hs.locks.busy i).mp hi
    exact ⟨p, hp, fun q hq => hs.locks.owner q p i hq hp⟩
  · intro p i hok hfrees
    exact hs.not_busy_of_frees hok.1 hok.2.1 hok.2.2 hfrees
  · intro st p i hok hi hl
    have ht := hs.step hok
    have hlive := ht.fields.live i (ht.ref_pos_of_owns (Or.inl hl)) (ht.fields.valid p i hl)
      (ht.not_finish_of_locked hl)
    exact hlive.2.2 (hs.synced_of_locked hi hl)

/-- A process frees an inode without links; before it is done, the number is allocated again, and the
process that gets it shares the slot and then locks it. -/
theorem itable_kept_reallocated :
    ∃ s, Run step Admits (booted fun _ _ => ⟨2, 0, 0, 0, 0, fun _ => 0⟩)
        [.iget 0 1 5, .ilock 0 ⟨0, by decide⟩, .fetched 0, .iunlock 0 ⟨0, by decide⟩,
          .iput 0 ⟨0, by decide⟩, .truncated 0, .erased 0, .ialloc 1 5 4, .iget 1 1 5,
          .ilock 1 ⟨0, by decide⟩, .finished 0, .retry 1] s ∧
      ((s.step (.fetched 1)).slot ⟨0, by decide⟩).node =
        (s.step (.fetched 1)).disk ((s.step (.fetched 1)).slot ⟨0, by decide⟩).dev
          ((s.step (.fetched 1)).slot ⟨0, by decide⟩).inum := by
  have hrun : Run step Admits (booted fun _ _ => ⟨2, 0, 0, 0, 0, fun _ => 0⟩)
      [.iget 0 1 5, .ilock 0 ⟨0, by decide⟩, .fetched 0, .iunlock 0 ⟨0, by decide⟩,
        .iput 0 ⟨0, by decide⟩, .truncated 0, .erased 0, .ialloc 1 5 4, .iget 1 1 5,
        .ilock 1 ⟨0, by decide⟩, .finished 0, .retry 1] _ :=
    Run.cons ⟨rfl, Or.inr (by decide +kernel)⟩ (Run.cons ⟨by decide +kernel, by decide +kernel⟩
      (Run.cons (fun _ _ => show (2 : Int16) ≠ 0 by decide) (Run.cons ⟨by decide +kernel, by decide +kernel, by decide +kernel⟩
        (Run.cons ⟨by decide +kernel, by decide +kernel, by decide +kernel⟩ (Run.cons trivial
          (Run.cons trivial (Run.cons ⟨by decide +kernel, by decide⟩
            (Run.cons ⟨by decide +kernel, Or.inl (by decide +kernel)⟩
              (Run.cons ⟨by decide +kernel, by decide +kernel⟩ (Run.cons trivial
                (Run.cons trivial (Run.nil _))))))))))))
  refine ⟨_, hrun, ?_⟩
  refine (itable_kept hrun).2.2.2.2.2 (.fetched 1) 1 ⟨0, by decide⟩ ?_ (by decide +kernel)
    (by decide +kernel)
  intro i hi
  have heq : (InodePc.fetch i) = .fetch ⟨0, by decide⟩ := hi.symm.trans (by decide +kernel)
  cases heq
  decide +kernel

end Itable

end Xv6
end LfsXv6
