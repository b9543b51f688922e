import LfsXv6.Lib.Circular
import LfsXv6.Lib.Run
import LfsXv6.Xv6.Layout

/-!
# Bcache — the buffer cache of `bio.c` under any number of processes

The steps are those that `bcache.lock` delimits: one scan of `bget`, from its start or from a wakeup to
the return or the next sleep, the completion of a transfer by the disk, and `brelse`; between them a
process changes the bytes of the buffers it holds.  `iderw` is taken to transfer one sector.
-/

namespace LfsXv6
namespace Xv6

open Lib

/-- The device number of a buffer that has no block yet. -/
def noDev : UInt32 := 0xFFFFFFFF

/-- The nodes of the list: `&bcache.head`, and the buffers. -/
abbrev Node := Option (Fin nbuf)

/-- `struct buf`, without its pointers; `flags` is given by its three bits. -/
structure Buf (δ : Type) where
  dev : UInt32
  sector : UInt32
  busy : Bool
  valid : Bool
  dirty : Bool
  data : δ

/-- Where a process is: outside the cache, asleep in `bget`, or waiting for the disk in `bread` or in
`bwrite`. -/
inductive BufPc where
  | idle
  | bget (dev sector : UInt32)
  | load (dev sector : UInt32) (b : Fin nbuf)
  | store (b : Fin nbuf)
  deriving DecidableEq

/-- The cache, the disk, the processes and the buffers that `bread` has returned to them.  `synced` is
for the specification: the bytes of the buffer have not been changed since they were last transferred. -/
structure Bcache (δ : Type) where
  buf : Fin nbuf → Buf δ
  links : Links Node
  disk : UInt32 → UInt32 → δ
  pc : Nat → BufPc
  held : Nat → List (Fin nbuf)
  synced : Fin nbuf → Bool

inductive BufStep (δ : Type) where
  | bread (p : Nat) (dev sector : UInt32)
  | retry (p : Nat)
  | loaded (p : Nat)
  | modify (p : Nat) (b : Fin nbuf) (data : δ)
  | bwrite (p : Nat) (b : Fin nbuf)
  | stored (p : Nat)
  | brelse (p : Nat) (b : Fin nbuf)

/-- How a scan of `bget` ends. -/
inductive Got where
  | hit (b : Fin nbuf)
  | wait
  | fresh (b : Fin nbuf)
  | panic
  deriving DecidableEq

/-- The list that `binit` builds. -/
def binit : Links Node :=
  (List.finRange nbuf).foldl (fun k b => k.pushFront none (some b))
    { next := fun _ => none, prev := fun _ => none }

namespace Bcache

variable {δ : Type}

def booted (disk : UInt32 → UInt32 → δ) (junk : Fin nbuf → δ) : Bcache δ where
  buf := fun b => ⟨noDev, 0, false, false, false, junk b⟩
  links := binit
  disk := disk
  pc := fun _ => .idle
  held := fun _ => []
  synced := fun _ => true

/-- The buffers in the order of the `next` pointers. -/
def forward (s : Bcache δ) : List (Fin nbuf) :=
  (Links.walk s.links.next none nbuf (s.links.next none)).filterMap id

/-- The buffers in the order of the `prev` pointers. -/
def backward (s : Bcache δ) : List (Fin nbuf) :=
  (Links.walk s.links.prev none nbuf (s.links.prev none)).filterMap id

/-- A scan of `bget`: what it finds. -/
def bget (s : Bcache δ) (dev sector : UInt32) : Got :=
  match s.forward.find? fun b => (s.buf b).dev = dev ∧ (s.buf b).sector = sector with
  | some b => if (s.buf b).busy then .wait else .hit b
  | none =>
      match s.backward.find? fun b => (s.buf b).busy = false with
      | some b => .fresh b
      | none => .panic

/-- `bget` has returned `b` to process `p`: `bread` returns it too, or waits for the disk. -/
def gotten (s : Bcache δ) (p : Nat) (dev sector : UInt32) (b : Fin nbuf) : Bcache δ :=
  if (s.buf b).valid then
    { s with pc := Function.update s.pc p .idle, held := Function.update s.held p (b :: s.held p) }
  else { s with pc := Function.update s.pc p (.load dev sector b) }

/-- The part of `bread` up to a sleep or the return. -/
def scan (s : Bcache δ) (p : Nat) (dev sector : UInt32) : Bcache δ :=
  match s.bget dev sector with
  | .hit b =>
      gotten { s with buf := Function.update s.buf b { s.buf b with busy := true } } p dev sector b
  | .wait => { s with pc := Function.update s.pc p (.bget dev sector) }
  | .fresh b =>
      gotten { s with
        buf := Function.update s.buf b { s.buf b with
          dev := dev, sector := sector, busy := true, valid := false, dirty := false }
        synced := Function.update s.synced b true } p dev sector b
  | .panic => s

def step (s : Bcache δ) : BufStep δ → Bcache δ
  | .bread p dev sector => s.scan p dev sector
  | .retry p =>
      match s.pc p with
      | .bget dev sector => s.scan p dev sector
      | _ => s
  | .loaded p =>
      match s.pc p with
      | .load _ _ b =>
          { s with
            buf := Function.update s.buf b { s.buf b with
              data := s.disk (s.buf b).dev (s.buf b).sector, valid := true, dirty := false }
            synced := Function.update s.synced b true
            pc := Function.update s.pc p .idle
            held := Function.update s.held p (b :: s.held p) }
      | _ => s
  | .modify _ b data =>
      { s with
        buf := Function.update s.buf b { s.buf b with data := data }
        synced := Function.update s.synced b false }
  | .bwrite p b =>
      { s with
        buf := Function.update s.buf b { s.buf b with dirty := true }
        pc := Function.update s.pc p (.store b) }
  | .stored p =>
      match s.pc p with
      | .store b =>
          { s with
            disk := Function.update s.disk (s.buf b).dev
              (Function.update (s.disk (s.buf b).dev) (s.buf b).sector (s.buf b).data)
            buf := Function.update s.buf b { s.buf b with valid := true, dirty := false }
            synced := Function.update s.synced b true
            pc := Function.update s.pc p .idle }
      | _ => s
  | .brelse p b =>
      { s with
        links := (s.links.unlink (some b)).pushFront none (some b)
        buf := Function.update s.buf b { s.buf b with busy := false }
        held := Function.update s.held p ((s.held p).erase b) }

/-- A process takes one step after the other, uses only buffers that it holds, and asks for blocks of a
device.  With all buffers locked `bget` panics and nothing follows. -/
def Admits (s : Bcache δ) : BufStep δ → Prop
  | .bread p dev sector => s.pc p = .idle ∧ dev ≠ noDev ∧ s.bget dev sector ≠ .panic
  | .retry p => ∀ dev sector, s.pc p = .bget dev sector → s.bget dev sector ≠ .panic
  | .loaded _ => True
  | .modify p b _ => s.pc p = .idle ∧ b ∈ s.held p
  | .bwrite p b => s.pc p = .idle ∧ b ∈ s.held p
  | .stored _ => True
  | .brelse p b => s.pc p = .idle ∧ b ∈ s.held p

/-- The buffers that process `p` has locked: those `bread` has returned, and the one it waits for. -/
def Owns (s : Bcache δ) (p : Nat) (b : Fin nbuf) : Prop :=
  b ∈ s.held p ∨ ∃ dev sector, s.pc p = .load dev sector b

/-! ## The list of the buffers -/

/-- The buffers in the order of their last use. -/
def Listed (s : Bcache δ) (order : List (Fin nbuf)) : Prop :=
  s.links.Circular none (order.map some) ∧ order.Perm (List.finRange nbuf)

variable {s : Bcache δ} {order : List (Fin nbuf)}

theorem Listed.mem (h : s.Listed order) (b : Fin nbuf) : b ∈ order :=
  h.2.mem_iff.mpr (List.mem_finRange b)

theorem Listed.length_le (h : s.Listed order) : (order.map some).length ≤ nbuf := by
  rw [List.length_map, h.2.length_eq, List.length_finRange]

theorem Listed.forward (h : s.Listed order) : s.forward = order := by
  unfold Bcache.forward
  rw [h.1.walk_next h.length_le, List.filterMap_map]
  exact List.filterMap_some

theorem Listed.backward (h : s.Listed order) : s.backward = order.reverse := by
  unfold Bcache.backward
  rw [h.1.walk_prev h.length_le, ← List.map_reverse, List.filterMap_map]
  exact List.filterMap_some

theorem foldl_pushFront {bs : List (Fin nbuf)} {k : Links Node} {l : List Node}
    (hk : k.Circular none l) (hbs : bs.Nodup) (hl : ∀ b ∈ bs, some b ∉ l) :
    (bs.foldl (fun k b => k.pushFront none (some b)) k).Circular none
      ((bs.map some).reverse ++ l) := by
  induction bs generalizing k l with
  | nil => exact hk
  | cons b bs ih =>
      rw [List.nodup_cons] at hbs
      have hb : some b ∉ none :: l := by simpa using hl b List.mem_cons_self
      have hstep := ih (hk.pushFront hb) hbs.2 fun c hc => by
        rw [List.mem_cons, not_or]
        refine ⟨?_, hl c (List.mem_cons_of_mem _ hc)⟩
        rintro heq
        cases heq
        exact hbs.1 hc
      simpa using hstep

theorem booted_listed (disk : UInt32 → UInt32 → δ) (junk : Fin nbuf → δ) :
    (booted disk junk).Listed (List.finRange nbuf).reverse := by
  have hempty : (Links.mk (fun _ => none) fun _ => none : Links Node).Circular none [] :=
    ⟨⟨rfl, rfl⟩, by simp⟩
  have hall := foldl_pushFront hempty (List.nodup_finRange nbuf) fun _ _ => List.not_mem_nil
  refine ⟨?_, List.reverse_perm _⟩
  rw [List.append_nil] at hall
  rw [List.map_reverse]
  exact hall

/-- `brelse` moves the buffer to the front. -/
theorem Listed.front (h : s.Listed order) (b : Fin nbuf) :
    ((s.links.unlink (some b)).pushFront none (some b)).Circular none
        ((b :: order.erase b).map some) ∧
      (b :: order.erase b).Perm (List.finRange nbuf) := by
  obtain ⟨l₁, l₂, hsplit⟩ := List.append_of_mem (h.mem b)
  have hnodup : order.Nodup := h.2.nodup_iff.mpr (List.nodup_finRange nbuf)
  have hb : b ∉ l₁ ∧ b ∉ l₂ := by
    rw [hsplit] at hnodup
    simp only [List.nodup_append, List.nodup_cons, List.mem_cons] at hnodup
    exact ⟨fun hb => hnodup.2.2 b hb b (Or.inl rfl) rfl, hnodup.2.1.1⟩
  have herase : order.erase b = l₁ ++ l₂ := by
    rw [hsplit, List.erase_append_right _ hb.1, List.erase_cons_head]
  have hout : (s.links.unlink (some b)).Circular none (l₁.map some ++ l₂.map some) := by
    refine Links.Circular.unlink ?_
    have hc := h.1
    rwa [hsplit, List.map_append, List.map_cons] at hc
  rw [herase, List.map_cons, List.map_append]
  refine ⟨hout.pushFront (by simpa using hb), ?_⟩
  refine List.Perm.trans ?_ h.2
  rw [hsplit]
  exact List.perm_middle.symm

/-! ## What a scan finds -/

theorem bget_eq_hit {dev sector : UInt32} {b : Fin nbuf} (h : s.bget dev sector = .hit b) :
    (s.buf b).dev = dev ∧ (s.buf b).sector = sector ∧ (s.buf b).busy = false := by
  unfold bget at h
  cases hf : s.forward.find? fun b => (s.buf b).dev = dev ∧ (s.buf b).sector = sector with
  | none =>
      simp only [hf] at h
      cases hb : s.backward.find? fun b => (s.buf b).busy = false with
      | none =>
          simp only [hb] at h
          cases h
      | some c =>
          simp only [hb] at h
          cases h
  | some c =>
      simp only [hf] at h
      have hc := List.find?_some hf
      split at h
      · cases h
      · rename_i hbusy
        cases h
        simpa [and_assoc] using And.intro hc hbusy

/-- A buffer is taken for a new block only when no buffer has that block. -/
theorem bget_eq_fresh {dev sector : UInt32} {b : Fin nbuf} (hl : s.Listed order)
    (h : s.bget dev sector = .fresh b) :
    (s.buf b).busy = false ∧ ∀ c, (s.buf c).dev = dev → (s.buf c).sector ≠ sector := by
  unfold bget at h
  cases hf : s.forward.find? fun b => (s.buf b).dev = dev ∧ (s.buf b).sector = sector with
  | some c =>
      simp only [hf] at h
      split at h <;> cases h
  | none =>
      simp only [hf] at h
      cases hb : s.backward.find? fun b => (s.buf b).busy = false with
      | none =>
          simp only [hb] at h
          cases h
      | some c =>
          simp only [hb, Got.fresh.injEq] at h
          subst h
          refine ⟨by simpa using List.find?_some hb, ?_⟩
          intro d hdev hsector
          have hnone := List.find?_eq_none.mp hf d (hl.forward ▸ hl.mem d)
          simp [hdev, hsector] at hnone

/-! ## The invariant -/

/-- What holds between the steps of the processes. -/
structure Coherent (s : Bcache δ) : Prop where
  list : ∃ order, s.Listed order
  uniq : ∀ b c, (s.buf b).dev = (s.buf c).dev → (s.buf b).sector = (s.buf c).sector →
    (s.buf b).dev ≠ noDev → b = c
  unused : ∀ b, (s.buf b).dev = noDev → (s.buf b).valid = false ∧ (s.buf b).busy = false
  nodup : ∀ p, (s.held p).Nodup
  busy : ∀ b, (s.buf b).busy = true ↔ ∃ p, s.Owns p b
  owner : ∀ p q b, s.Owns p b → s.Owns q b → p = q
  load : ∀ p dev sector b, s.pc p = .load dev sector b →
    b ∉ s.held p ∧ (s.buf b).dev = dev ∧ (s.buf b).sector = sector
  store : ∀ p b, s.pc p = .store b → b ∈ s.held p
  request : ∀ p dev sector, s.pc p = .bget dev sector → dev ≠ noDev
  data : ∀ b, (s.buf b).valid = true → s.synced b = true →
    (s.buf b).data = s.disk (s.buf b).dev (s.buf b).sector

namespace Coherent

theorem booted (disk : UInt32 → UInt32 → δ) (junk : Fin nbuf → δ) :
    Coherent (booted disk junk) where
  list := ⟨_, booted_listed disk junk⟩
  uniq b c _ _ h := absurd rfl h
  unused b _ := ⟨rfl, rfl⟩
  nodup p := List.nodup_nil
  busy b := by simp [Bcache.booted, Owns]
  owner p q b h := by simp [Bcache.booted, Owns] at h
  load p dev sector b h := by cases h
  store p b h := by cases h
  request p dev sector h := by cases h
  data b h := by cases h

theorem not_owned (h : Coherent s) {b : Fin nbuf} (hb : (s.buf b).busy = false) (p : Nat) :
    ¬ s.Owns p b := by
  intro hp
  have := (h.busy b).mpr ⟨p, hp⟩
  rw [hb] at this
  cases this

/-- A buffer that nobody has locked goes to a process outside the cache. -/
theorem gotten (h : Coherent s) {p : Nat} {dev sector : UInt32} {b : Fin nbuf} {x : Buf δ}
    {synced : Fin nbuf → Bool}
    (hpc : ∀ c, s.pc p ≠ .store c ∧ ∀ d e, s.pc p ≠ .load d e c) (hdev : dev ≠ noDev)
    (hb : (s.buf b).busy = false) (hx : x.dev = dev ∧ x.sector = sector ∧ x.busy = true)
    (huniq : ∀ c, c ≠ b → (s.buf c).dev = dev → (s.buf c).sector ≠ sector)
    (hsynced : ∀ c, c ≠ b → synced c = s.synced c)
    (hdata : x.valid = true → synced b = true → x.data = s.disk dev sector) :
    Coherent (Bcache.gotten { s with buf := Function.update s.buf b x, synced := synced }
      p dev sector b) := by
  have hfree := h.not_owned hb
  obtain ⟨hlist, huniq', hunused, hnodup, hbusy, howner, hload, hstore, hreq, hdata'⟩ := h
  generalize ht : Bcache.gotten { s with buf := Function.update s.buf b x, synced := synced }
    p dev sector b = t
  have hbuf : t.buf = Function.update s.buf b x := by
    subst ht
    unfold Bcache.gotten
    split <;> rfl
  have hrest : t.links = s.links ∧ t.disk = s.disk ∧ t.synced = synced := by
    subst ht
    unfold Bcache.gotten
    split <;> exact ⟨rfl, rfl, rfl⟩
  have hproc : t.pc = Function.update s.pc p .idle ∧
        t.held = Function.update s.held p (b :: s.held p) ∨
      t.pc = Function.update s.pc p (.load dev sector b) ∧ t.held = s.held := by
    subst ht
    unfold Bcache.gotten
    split
    · exact Or.inl ⟨rfl, rfl⟩
    · exact Or.inr ⟨rfl, rfl⟩
  -- the only new lock is that of `p` on `b`
  have hown : ∀ q c, t.Owns q c ↔ q = p ∧ c = b ∨ s.Owns q c := by
    intro q c
    unfold Owns
    by_cases hq : q = p
    · subst hq
      rcases hproc with ⟨hp, hh⟩ | ⟨hp, hh⟩ <;> rw [hp, hh] <;> grind
    · rcases hproc with ⟨hp, hh⟩ | ⟨hp, hh⟩ <;> rw [hp, hh] <;> grind
  have hself : t.buf b = x := by rw [hbuf, Function.update_self]
  have hother : ∀ c, c ≠ b → t.buf c = s.buf c := by
    intro c hc
    rw [hbuf, Function.update_of_ne hc]
  have hpc' : ∀ q, q ≠ p → t.pc q = s.pc q ∧ t.held q = s.held q := by
    intro q hq
    rcases hproc with ⟨hp, hh⟩ | ⟨hp, hh⟩ <;> simp [hp, hh, hq]
  have hpc'' : t.pc p = .idle ∧ t.held p = b :: s.held p ∨
      t.pc p = .load dev sector b ∧ t.held p = s.held p := by
    rcases hproc with ⟨hp, hh⟩ | ⟨hp, hh⟩ <;> simp [hp, hh]
  obtain ⟨hlinks, hdisk, hsync⟩ := hrest
  refine ⟨?_, ?_, ?_, ?_, ?_, ?_, ?_, ?_, ?_, ?_⟩
  · obtain ⟨order, horder⟩ := hlist
    exact ⟨order, hlinks ▸ horder.1, horder.2⟩
  · intro c d
    by_cases hc : c = b <;> by_cases hd : d = b <;> grind
  · intro c
    by_cases hc : c = b <;> grind
  · intro q
    have hnot : b ∉ s.held q := fun hmem => hfree q (Or.inl hmem)
    by_cases hq : q = p
    · subst hq
      rcases hpc'' with ⟨-, hh⟩ | ⟨-, hh⟩
      · rw [hh]
        exact List.nodup_cons.mpr ⟨hnot, hnodup q⟩
      · rw [hh]
        exact hnodup q
    · rw [(hpc' q hq).2]
      exact hnodup q
  · intro c
    by_cases hc : c = b
    · subst hc
      rw [hself]
      exact iff_of_true hx.2.2 ⟨p, (hown p c).mpr (Or.inl ⟨rfl, rfl⟩)⟩
    · rw [hother c hc, hbusy c]
      simp [hown, hc]
  · intro q r c hq hr
    rw [hown] at hq hr
    rcases hq with ⟨rfl, rfl⟩ | hq
    · rcases hr with ⟨rfl, -⟩ | hr
      · rfl
      · exact absurd hr (hfree r)
    · rcases hr with ⟨rfl, rfl⟩ | hr
      · exact absurd hq (hfree q)
      · exact howner q r c hq hr
  · intro q d e c hq
    have hnot : b ∉ s.held q := fun hmem => hfree q (Or.inl hmem)
    by_cases hqp : q = p
    · subst hqp
      rcases hpc'' with ⟨hp, hh⟩ | ⟨hp, hh⟩ <;> grind
    · rw [(hpc' q hqp).1] at hq
      have hc : c ≠ b := by
        rintro rfl
        exact hfree q (Or.inr ⟨d, e, hq⟩)
      rw [(hpc' q hqp).2, hother c hc]
      exact hload q d e c hq
  · intro q c hq
    by_cases hqp : q = p
    · subst hqp
      rcases hpc'' with ⟨hp, hh⟩ | ⟨hp, hh⟩ <;> grind
    · rw [(hpc' q hqp).1] at hq
      rw [(hpc' q hqp).2]
      exact hstore q c hq
  · intro q d e hq
    by_cases hqp : q = p
    · subst hqp
      rcases hpc'' with ⟨hp, hh⟩ | ⟨hp, hh⟩ <;> grind
    · rw [(hpc' q hqp).1] at hq
      exact hreq q d e hq
  · intro c hv hs
    rw [hdisk]
    by_cases hc : c = b
    · subst hc
      rw [hself] at hv ⊢
      rw [hx.1, hx.2.1]
      exact hdata hv (hsync ▸ hs)
    · rw [hother c hc] at hv ⊢
      rw [hsync, hsynced c hc] at hs
      exact hdata' c hv hs

/-- A step of process `p` that leaves every buffer with its block and its owner. -/
theorem same_owners (h : Coherent s) {t : Bcache δ} {p : Nat} (hlinks : t.links = s.links)
    (hid : ∀ c, (t.buf c).dev = (s.buf c).dev ∧ (t.buf c).sector = (s.buf c).sector ∧
      (t.buf c).busy = (s.buf c).busy)
    (hvalid : ∀ c, (t.buf c).valid = true → (s.buf c).valid = true ∨ (s.buf c).busy = true)
    (hrest : ∀ q, q ≠ p → t.pc q = s.pc q ∧ t.held q = s.held q)
    (hown : ∀ c, t.Owns p c ↔ s.Owns p c) (hnodup : (t.held p).Nodup)
    (hload : ∀ d e c, t.pc p = .load d e c →
      c ∉ t.held p ∧ (s.buf c).dev = d ∧ (s.buf c).sector = e)
    (hstore : ∀ c, t.pc p = .store c → c ∈ t.held p)
    (hreq : ∀ d e, t.pc p = .bget d e → d ≠ noDev)
    (hdata : ∀ c, (t.buf c).valid = true → t.synced c = true →
      (t.buf c).data = t.disk (t.buf c).dev (t.buf c).sector) : Coherent t := by
  have howns : ∀ q c, t.Owns q c ↔ s.Owns q c := by
    intro q c
    by_cases hq : q = p
    · subst hq
      exact hown c
    · rw [Owns, Owns, (hrest q hq).1, (hrest q hq).2]
  refine ⟨?_, ?_, ?_, ?_, ?_, ?_, ?_, ?_, ?_, hdata⟩
  · obtain ⟨order, horder⟩ := h.list
    exact ⟨order, hlinks ▸ horder.1, horder.2⟩
  · intro b c hdev hsector hne
    rw [(hid b).1] at hdev hne
    rw [(hid c).1] at hdev
    rw [(hid b).2.1, (hid c).2.1] at hsector
    exact h.uniq b c hdev hsector hne
  · intro c hc
    rw [(hid c).1] at hc
    obtain ⟨hv, hb⟩ := h.unused c hc
    refine ⟨?_, (hid c).2.2.trans hb⟩
    by_contra hne
    rcases hvalid c (by simpa using hne) with hv' | hb'
    · exact absurd (hv.symm.trans hv') (by decide)
    · exact absurd (hb.symm.trans hb') (by decide)
  · intro q
    by_cases hq : q = p
    · subst hq
      exact hnodup
    · rw [(hrest q hq).2]
      exact h.nodup q
  · intro c
    rw [(hid c).2.2, h.busy c]
    simp only [howns]
  · intro q r c hq hr
    exact h.owner q r c ((howns q c).mp hq) ((howns r c).mp hr)
  · intro q d e c hq
    rw [(hid c).1, (hid c).2.1]
    by_cases hqp : q = p
    · subst hqp
      exact hload d e c hq
    · rw [(hrest q hqp).1] at hq
      rw [(hrest q hqp).2]
      exact h.load q d e c hq
  · intro q c hq
    by_cases hqp : q = p
    · subst hqp
      exact hstore c hq
    · rw [(hrest q hqp).1] at hq
      rw [(hrest q hqp).2]
      exact h.store q c hq
  · intro q d e hq
    by_cases hqp : q = p
    · subst hqp
      exact hreq d e hq
    · rw [(hrest q hqp).1] at hq
      exact h.request q d e hq

theorem wait (h : Coherent s) {p : Nat} {dev sector : UInt32}
    (hpc : ∀ c, s.pc p ≠ .store c ∧ ∀ d e, s.pc p ≠ .load d e c) (hdev : dev ≠ noDev) :
    Coherent { s with pc := Function.update s.pc p (.bget dev sector) } := by
  refine h.same_owners (p := p) rfl (fun _ => ⟨rfl, rfl, rfl⟩) (fun _ hv => Or.inl hv) ?_ ?_
    (h.nodup p) ?_ ?_ ?_ h.data
  · intro q hq
    exact ⟨Function.update_of_ne hq _ _, rfl⟩
  · intro c
    have hload : ¬ ∃ d e, s.pc p = .load d e c := by
      rintro ⟨d, e, hde⟩
      exact (hpc c).2 d e hde
    simp [Owns, hload]
  · intro d e c hc
    simp at hc
  · intro c hc
    simp at hc
  · intro d e hde
    simp only [Function.update_self, BufPc.bget.injEq] at hde
    exact hde.1 ▸ hdev

/-- A scan of `bget` by a process that is neither reading nor writing. -/
theorem scan (h : Coherent s) {p : Nat} {dev sector : UInt32}
    (hpc : ∀ c, s.pc p ≠ .store c ∧ ∀ d e, s.pc p ≠ .load d e c) (hdev : dev ≠ noDev) :
    Coherent (s.scan p dev sector) := by
  unfold Bcache.scan
  cases hg : s.bget dev sector with
  | hit b =>
      obtain ⟨hd, hs, hb⟩ := bget_eq_hit hg
      refine h.gotten hpc hdev hb ⟨hd, hs, rfl⟩ ?_ (fun _ _ => rfl) ?_
      · intro c hc hcd hcs
        exact hc (h.uniq c b (hcd.trans hd.symm) (hcs.trans hs.symm) (hcd ▸ hdev))
      · intro hv hsync
        have hdata := h.data b hv hsync
        rwa [hd, hs] at hdata
  | wait => exact h.wait hpc hdev
  | fresh b =>
      obtain ⟨order, horder⟩ := h.list
      obtain ⟨hb, hnew⟩ := bget_eq_fresh horder hg
      refine h.gotten hpc hdev hb ⟨rfl, rfl, rfl⟩ (fun c _ => hnew c) ?_ ?_
      · intro c hc
        exact Function.update_of_ne hc _ _
      · intro hv
        cases hv
  | panic => exact h

theorem loaded (h : Coherent s) (p : Nat) : Coherent (s.step (.loaded p)) := by
  simp only [Bcache.step]
  cases hpc : s.pc p with
  | load dev sector b =>
      obtain ⟨hnot, hd, hs⟩ := h.load p dev sector b hpc
      have hbusy : (s.buf b).busy = true := (h.busy b).mpr ⟨p, Or.inr ⟨dev, sector, hpc⟩⟩
      refine h.same_owners (p := p) rfl ?_ ?_ ?_ ?_ ?_ ?_ ?_ ?_ ?_
      · intro c
        by_cases hc : c = b
        · subst hc
          simp
        · simp [hc]
      · intro c hv
        by_cases hc : c = b
        · exact Or.inr (hc ▸ hbusy)
        · simp only [Function.update_of_ne hc] at hv
          exact Or.inl hv
      · intro q hq
        exact ⟨Function.update_of_ne hq _ _, Function.update_of_ne hq _ _⟩
      · intro c
        simp only [Owns, Function.update_self, List.mem_cons, hpc, BufPc.load.injEq]
        constructor
        · rintro ((rfl | hc) | ⟨d, e, hde⟩)
          · exact Or.inr ⟨dev, sector, rfl, rfl, rfl⟩
          · exact Or.inl hc
          · cases hde
        · rintro (hc | ⟨d, e, -, -, rfl⟩)
          · exact Or.inl (Or.inr hc)
          · exact Or.inl (Or.inl rfl)
      · simp only [Function.update_self]
        exact List.nodup_cons.mpr ⟨hnot, h.nodup p⟩
      · intro d e c hc
        simp at hc
      · intro c hc
        simp at hc
      · intro d e hde
        simp at hde
      · intro c hv hsync
        by_cases hc : c = b
        · subst hc
          simp
        · simp only [Function.update_of_ne hc] at hv hsync ⊢
          exact h.data c hv hsync
  | idle => exact h
  | bget dev sector => exact h
  | store b => exact h

theorem modify (h : Coherent s) {p : Nat} {b : Fin nbuf} (data : δ) :
    Coherent (s.step (.modify p b data)) := by
  simp only [Bcache.step]
  refine h.same_owners (p := p) rfl ?_ ?_ (fun _ _ => ⟨rfl, rfl⟩) (fun _ => Iff.rfl) (h.nodup p)
    (h.load p) (h.store p) (h.request p) ?_
  · intro c
    by_cases hc : c = b
    · subst hc
      simp
    · simp [hc]
  · intro c hv
    by_cases hc : c = b
    · subst hc
      simp only [Function.update_self] at hv
      exact Or.inl hv
    · simp only [Function.update_of_ne hc] at hv
      exact Or.inl hv
  · intro c hv hsync
    by_cases hc : c = b
    · subst hc
      simp at hsync
    · simp only [Function.update_of_ne hc] at hv hsync ⊢
      exact h.data c hv hsync

theorem bwrite (h : Coherent s) {p : Nat} {b : Fin nbuf} (hpc : s.pc p = .idle)
    (hb : b ∈ s.held p) : Coherent (s.step (.bwrite p b)) := by
  simp only [Bcache.step]
  refine h.same_owners (p := p) rfl ?_ ?_ ?_ ?_ (h.nodup p) ?_ ?_ ?_ ?_
  · intro c
    by_cases hc : c = b
    · subst hc
      simp
    · simp [hc]
  · intro c hv
    by_cases hc : c = b
    · subst hc
      simp only [Function.update_self] at hv
      exact Or.inl hv
    · simp only [Function.update_of_ne hc] at hv
      exact Or.inl hv
  · intro q hq
    exact ⟨Function.update_of_ne hq _ _, rfl⟩
  · intro c
    simp [Owns, hpc]
  · intro d e c hc
    simp at hc
  · intro c hc
    simp only [Function.update_self, BufPc.store.injEq] at hc
    exact hc ▸ hb
  · intro d e hde
    simp at hde
  · intro c hv hsync
    by_cases hc : c = b
    · subst hc
      simp only [Function.update_self] at hv ⊢
      exact h.data c hv hsync
    · simp only [Function.update_of_ne hc] at hv ⊢
      exact h.data c hv hsync

theorem dev_ne (h : Coherent s) {p : Nat} {b : Fin nbuf} (hb : s.Owns p b) :
    (s.buf b).dev ≠ noDev := by
  intro hdev
  exact h.not_owned (h.unused b hdev).2 p hb

theorem stored (h : Coherent s) (p : Nat) : Coherent (s.step (.stored p)) := by
  simp only [Bcache.step]
  cases hpc : s.pc p with
  | store b =>
      have hb := h.store p b hpc
      have hown : s.Owns p b := Or.inl hb
      refine h.same_owners (p := p) rfl ?_ ?_ ?_ ?_ (h.nodup p) ?_ ?_ ?_ ?_
      · intro c
        by_cases hc : c = b
        · subst hc
          simp
        · simp [hc]
      · intro c hv
        by_cases hc : c = b
        · exact Or.inr (hc ▸ (h.busy b).mpr ⟨p, hown⟩)
        · simp only [Function.update_of_ne hc] at hv
          exact Or.inl hv
      · intro q hq
        exact ⟨Function.update_of_ne hq _ _, rfl⟩
      · intro c
        simp [Owns, hpc]
      · intro d e c hc
        simp at hc
      · intro c hc
        simp at hc
      · intro d e hde
        simp at hde
      · intro c hv hsync
        by_cases hc : c = b
        · subst hc
          simp
        · -- the sector written is no other buffer's
          simp only [Function.update_of_ne hc] at hv hsync ⊢
          rw [h.data c hv hsync]
          by_cases hdev : (s.buf c).dev = (s.buf b).dev
          · have hsector : (s.buf c).sector ≠ (s.buf b).sector := by
              intro hsector
              exact hc (h.uniq c b hdev hsector (hdev ▸ h.dev_ne hown))
            rw [hdev, Function.update_self, Function.update_of_ne hsector]
          · rw [Function.update_of_ne hdev]
  | idle => exact h
  | bget dev sector => exact h
  | load dev sector b => exact h

theorem brelse (h : Coherent s) {p : Nat} {b : Fin nbuf} (hpc : s.pc p = .idle)
    (hb : b ∈ s.held p) : Coherent (s.step (.brelse p b)) := by
  have hown : ∀ q c, (s.step (.brelse p b)).Owns q c ↔ s.Owns q c ∧ c ≠ b := by
    intro q c
    simp only [Owns, Bcache.step]
    by_cases hq : q = p
    · subst hq
      simp [hpc, (h.nodup q).mem_erase_iff, and_comm]
    · have hnot : s.Owns q c → c ≠ b := by
        rintro hqc rfl
        exact hq (h.owner q p c hqc (Or.inl hb))
      rw [Function.update_of_ne hq]
      exact ⟨fun hqc => ⟨hqc, hnot hqc⟩, And.left⟩
  have hbuf : ∀ c, ((s.step (.brelse p b)).buf c).dev = (s.buf c).dev ∧
      ((s.step (.brelse p b)).buf c).sector = (s.buf c).sector ∧
      ((s.step (.brelse p b)).buf c).valid = (s.buf c).valid ∧
      ((s.step (.brelse p b)).buf c).data = (s.buf c).data := by
    intro c
    simp only [Bcache.step]
    by_cases hc : c = b
    · subst hc
      simp
    · simp [hc]
  refine ⟨?_, ?_, ?_, ?_, ?_, ?_, ?_, ?_, ?_, ?_⟩
  · obtain ⟨order, horder⟩ := h.list
    exact ⟨_, horder.front b⟩
  · intro c d hdev hsector hne
    rw [(hbuf c).1] at hdev hne
    rw [(hbuf d).1] at hdev
    rw [(hbuf c).2.1, (hbuf d).2.1] at hsector
    exact h.uniq c d hdev hsector hne
  · intro c hc
    rw [(hbuf c).1] at hc
    rw [(hbuf c).2.2.1]
    refine ⟨(h.unused c hc).1, ?_⟩
    simp only [Bcache.step]
    by_cases hcb : c = b
    · subst hcb
      simp
    · rw [Function.update_of_ne hcb]
      exact (h.unused c hc).2
  · intro q
    simp only [Bcache.step]
    by_cases hq : q = p
    · subst hq
      simpa using (h.nodup q).erase b
    · rw [Function.update_of_ne hq]
      exact h.nodup q
  · intro c
    simp only [hown]
    simp only [Bcache.step]
    by_cases hc : c = b
    · subst hc
      simp
    · rw [Function.update_of_ne hc, h.busy c]
      simp [hc]
  · intro q r c hq hr
    exact h.owner q r c ((hown q c).mp hq).1 ((hown r c).mp hr).1
  · intro q d e c hq
    have hq' : s.pc q = .load d e c := hq
    rw [(hbuf c).1, (hbuf c).2.1]
    refine ⟨?_, (h.load q d e c hq').2⟩
    simp only [Bcache.step]
    by_cases hqp : q = p
    · subst hqp
      rw [hpc] at hq'
      cases hq'
    · rw [Function.update_of_ne hqp]
      exact (h.load q d e c hq').1
  · intro q c hq
    have hq' : s.pc q = .store c := hq
    have hqp : q ≠ p := by
      rintro rfl
      rw [hpc] at hq'
      cases hq'
    simp only [Bcache.step]
    rw [Function.update_of_ne hqp]
    exact h.store q c hq'
  · exact h.request
  · intro c hv hsync
    rw [(hbuf c).2.2.1] at hv
    rw [(hbuf c).2.2.2, (hbuf c).1, (hbuf c).2.1]
    exact h.data c hv hsync

theorem step (h : Coherent s) {st : BufStep δ} (hok : s.Admits st) : Coherent (s.step st) := by
  cases st with
  | bread p dev sector =>
      refine h.scan (fun c => ⟨?_, fun d e => ?_⟩) hok.2.1 <;> rw [hok.1] <;> simp
  | retry p =>
      cases hpc : s.pc p with
      | bget dev sector =>
          simp only [Bcache.step, hpc]
          refine h.scan (fun c => ⟨?_, fun d e => ?_⟩) (h.request p dev sector hpc) <;> rw [hpc] <;>
            simp
      | idle => simpa only [Bcache.step, hpc] using h
      | load dev sector b => simpa only [Bcache.step, hpc] using h
      | store b => simpa only [Bcache.step, hpc] using h
  | loaded p => exact h.loaded p
  | modify p b data => exact h.modify data
  | bwrite p b => exact h.bwrite hok.1 hok.2
  | stored p => exact h.stored p
  | brelse p b => exact h.brelse hok.1 hok.2

end Coherent

/-- The call of `bread` that a step may end. -/
def request (s : Bcache δ) : BufStep δ → Option (Nat × UInt32 × UInt32)
  | .bread p dev sector => some (p, dev, sector)
  | .retry p =>
      match s.pc p with
      | .bget dev sector => some (p, dev, sector)
      | _ => none
  | .loaded p =>
      match s.pc p with
      | .load dev sector _ => some (p, dev, sector)
      | _ => none
  | _ => none

/-- By this step `bread(dev, sector)` returns `b` to process `p`. -/
def Returns (s : Bcache δ) (st : BufStep δ) (p : Nat) (dev sector : UInt32) (b : Fin nbuf) : Prop :=
  s.request st = some (p, dev, sector) ∧ b ∉ s.held p ∧ b ∈ (s.step st).held p

/-- A scan that returns a buffer returns a valid one of the block asked for. -/
theorem scan_returns {p : Nat} {dev sector : UInt32} {b : Fin nbuf} (hb : b ∉ s.held p)
    (h : b ∈ (s.scan p dev sector).held p) :
    ((s.scan p dev sector).buf b).dev = dev ∧ ((s.scan p dev sector).buf b).sector = sector ∧
      ((s.scan p dev sector).buf b).valid = true := by
  unfold scan at h ⊢
  cases hg : s.bget dev sector with
  | hit c =>
      obtain ⟨hd, hs, -⟩ := bget_eq_hit hg
      simp only [hg, gotten, Function.update_self] at h ⊢
      split at h
      · rename_i hv
        simp only [Function.update_self, List.mem_cons] at h
        rcases h with rfl | h
        · simp [hv, hd, hs]
        · exact absurd h hb
      · exact absurd h hb
  | wait => simp only [hg] at h; exact absurd h hb
  | fresh c =>
      simp only [hg, gotten, Function.update_self] at h
      exact absurd h hb
  | panic => simp only [hg] at h; exact absurd h hb

/-- **Coherence of the buffer cache.**  In every state that the processes can reach, whatever their
interleaving: the buffers form one circular list, no two of them have the same block, a locked buffer
has exactly one owner, and a valid buffer that was written after its last change holds what the disk
holds.  So `bread` returns a buffer of the block asked for with what was last written there. -/
theorem bcache_coherent {disk : UInt32 → UInt32 → δ} {junk : Fin nbuf → δ} {sts : List (BufStep δ)}
    {s : Bcache δ} (h : Run step Admits (booted disk junk) sts s) :
    (∃ order : List (Fin nbuf),
        s.links.Circular none (order.map some) ∧ order.Perm (List.finRange nbuf)) ∧
      (∀ b c, (s.buf b).dev = (s.buf c).dev → (s.buf b).sector = (s.buf c).sector →
        (s.buf b).dev ≠ noDev → b = c) ∧
      (∀ b, (s.buf b).busy = true → ∃! p, s.Owns p b) ∧
      (∀ b, (s.buf b).busy = false → (s.buf b).valid = true → s.synced b = true →
        (s.buf b).data = s.disk (s.buf b).dev (s.buf b).sector) ∧
      ∀ st p dev sector b, s.Admits st → s.Returns st p dev sector b →
        ((s.step st).buf b).dev = dev ∧ ((s.step st).buf b).sector = sector ∧
          ((s.step st).synced b = true → ((s.step st).buf b).data = (s.step st).disk dev sector) := by
  have hs : Coherent s := h.invariant (fun _ _ hs hok => hs.step hok) (Coherent.booted disk junk)
  refine ⟨hs.list, hs.uniq, ?_, fun b _ hv hsync => hs.data b hv hsync, ?_⟩
  · intro b hb
    obtain ⟨p, hp⟩ := (hs.busy b).mp hb
    exact ⟨p, hp, fun q hq => hs.owner q p b hq hp⟩
  · rintro st p dev sector b hok ⟨hreq, hnot, hheld⟩
    have hnext := hs.step hok
    -- whichever step ends the call, the buffer is valid and has the block
    have hret : ((s.step st).buf b).dev = dev ∧ ((s.step st).buf b).sector = sector ∧
        ((s.step st).buf b).valid = true := by
      cases st with
      | bread q d e =>
          cases hreq
          exact scan_returns hnot hheld
      | retry q =>
          cases hpc : s.pc q with
          | bget d e =>
              simp only [request, hpc, Option.some.injEq, Prod.mk.injEq] at hreq
              obtain ⟨rfl, rfl, rfl⟩ := hreq
              simp only [step, hpc] at hheld ⊢
              exact scan_returns hnot hheld
          | idle => simp [request, hpc] at hreq
          | load d e c => simp [request, hpc] at hreq
          | store c => simp [request, hpc] at hreq
      | loaded q =>
          cases hpc : s.pc q with
          | load d e c =>
              simp only [request, hpc, Option.some.injEq, Prod.mk.injEq] at hreq
              obtain ⟨rfl, rfl, rfl⟩ := hreq
              obtain ⟨-, hd, he⟩ := hs.load q d e c hpc
              simp only [step, hpc, Function.update_self, List.mem_cons] at hheld ⊢
              rcases hheld with rfl | hheld
              · simp [hd, he]
              · exact absurd hheld hnot
          | idle => simp [request, hpc] at hreq
          | bget d e => simp [request, hpc] at hreq
          | store c => simp [request, hpc] at hreq
      | modify q c data => cases hreq
      | bwrite q c => cases hreq
      | stored q => cases hreq
      | brelse q c => cases hreq
    obtain ⟨hd, he, hv⟩ := hret
    refine ⟨hd, he, fun hsync => ?_⟩
    have hdata := hnext.data b hv hsync
    rwa [hd, he] at hdata

/-- A block is read, changed, written and released, and read again. -/
theorem bcache_coherent_reread :
    ∃ s : Bcache Nat, Run step Admits (booted (fun _ _ => 0) fun _ => 1)
        [.bread 0 1 5, .loaded 0, .modify 0 ⟨0, by decide⟩ 7, .bwrite 0 ⟨0, by decide⟩, .stored 0,
          .brelse 0 ⟨0, by decide⟩] s ∧
      s.Returns (.bread 1 1 5) 1 1 5 ⟨0, by decide⟩ ∧
      ((s.step (.bread 1 1 5)).buf ⟨0, by decide⟩).dev = 1 := by
  have hrun : Run step Admits (booted (fun _ _ => 0) fun _ => 1)
      [.bread 0 1 5, .loaded 0, .modify 0 ⟨0, by decide⟩ 7, .bwrite 0 ⟨0, by decide⟩, .stored 0,
        .brelse 0 ⟨0, by decide⟩] _ :=
    Run.cons ⟨rfl, by decide, by decide +kernel⟩ (Run.cons trivial
      (Run.cons ⟨by decide +kernel, by decide +kernel⟩
        (Run.cons ⟨by decide +kernel, by decide +kernel⟩ (Run.cons trivial
          (Run.cons ⟨by decide +kernel, by decide +kernel⟩ (Run.nil _))))))
  refine ⟨_, hrun, ⟨rfl, by decide +kernel, by decide +kernel⟩, ?_⟩
  exact ((bcache_coherent hrun).2.2.2.2 (.bread 1 1 5) 1 1 5 ⟨0, by decide⟩ ⟨by decide +kernel,
    by decide, by decide +kernel⟩ ⟨rfl, by decide +kernel, by decide +kernel⟩).1

end Bcache

end Xv6
end LfsXv6
