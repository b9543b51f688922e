import LfsXv6.Lib.Program
import LfsXv6.Xv6.Layout

/-!
# Bio — the buffer cache of `bio.c`, seen by the thread that runs

A buffer stands for its sector.  `bget` finds a buffer for a sector unless that sector is locked, and
then it sleeps; with all `NBUF` buffers locked it panics.  The kernel code modelled here changes the
bytes of a buffer only to hand them to `bwrite` at once, so a buffer holds what the disk holds.
-/

namespace LfsXv6
namespace Xv6

open Lib

/-- The disk, and the sectors whose buffers have `B_BUSY` set, last locked first. -/
structure Bufs where
  disk : Nat → Sector
  busy : List Nat

/-- `bread`: lock the buffer of a sector and return its bytes. -/
def bread (sector : Nat) : Prog Bufs Sector := fun s =>
  if sector ∈ s.busy then .error .sleep
  else if nbuf ≤ s.busy.length then .error (.panic "bget: no buffers")
  else .ok (s.disk sector, { s with busy := sector :: s.busy })

/-- `bwrite`, with the bytes that were put into the buffer. -/
def bwrite (sector : Nat) (data : Sector) : Prog Bufs Unit := fun s =>
  if sector ∈ s.busy then .ok ((), { s with disk := Function.update s.disk sector data })
  else .error (.panic "bwrite")

/-- `brelse` -/
def brelse (sector : Nat) : Prog Bufs Unit := fun s =>
  if sector ∈ s.busy then .ok ((), { s with busy := s.busy.erase sector })
  else .error (.panic "brelse")

/-! ## What the three operations do when they return -/

section Spec

variable {s t : Bufs} {b : Nat} {d : Sector}

theorem bread_eq_ok (h : bread b s = .ok (d, t)) :
    b ∉ s.busy ∧ s.busy.length < nbuf ∧ d = s.disk b ∧ t = { s with busy := b :: s.busy } := by
  unfold bread at h
  split at h
  · cases h
  · rename_i hfree
    split at h
    · cases h
    · rename_i hlen
      cases h
      exact ⟨hfree, by omega, rfl, rfl⟩

theorem bread_ok (hb : b ∉ s.busy) (hlen : s.busy.length < nbuf) :
    bread b s = .ok (s.disk b, { s with busy := b :: s.busy }) := by
  unfold bread
  rw [if_neg hb, if_neg (by omega)]

theorem bwrite_eq_ok {x : Unit} (h : bwrite b d s = .ok (x, t)) :
    b ∈ s.busy ∧ t = { s with disk := Function.update s.disk b d } := by
  unfold bwrite at h
  split at h
  · rename_i hb
    cases h
    exact ⟨hb, rfl⟩
  · cases h

theorem bwrite_ok (hb : b ∈ s.busy) (d : Sector) :
    bwrite b d s = .ok ((), { s with disk := Function.update s.disk b d }) := by
  unfold bwrite
  rw [if_pos hb]

theorem brelse_eq_ok {x : Unit} (h : brelse b s = .ok (x, t)) :
    b ∈ s.busy ∧ t = { s with busy := s.busy.erase b } := by
  unfold brelse at h
  split at h
  · rename_i hb
    cases h
    exact ⟨hb, rfl⟩
  · cases h

theorem brelse_ok (hb : b ∈ s.busy) : brelse b s = .ok ((), { s with busy := s.busy.erase b }) := by
  unfold brelse
  rw [if_pos hb]

end Spec

end Xv6
end LfsXv6
