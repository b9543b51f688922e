import LfsXv6.Linux.Checkpoint

/-!
# Refinement — what it means for a request to be served correctly

`Refines s r ret s'` compares one turn of the server with the abstract file system.  It also records
the three facts about the image that are invisible in the abstraction: how far the log grew, where the
request wrote, and whether the checkpoint region was kept.
-/

namespace LfsXv6
namespace Linux

open Lib

/-- The requests after which `next_block` is ahead of the checkpoint region: a creation that extends
the directory and then fails the type check. -/
def Fs.Forgets (fs : Fs) : Request → Prop
  | .creat pinum type name =>
      ∃ slots, fs pinum = some (.dir slots) ∧ lookupSlots slots name = -1 ∧ fs.freeInum ≠ -1 ∧
        none ∉ slots ∧ slots.length < 14 * 128 ∧ type ≠ mfsDirectory ∧ type ≠ mfsRegularFile
  | _ => False

structure Refines (s : Server) (r : Request) (ret : Int32) (s' : Server) : Prop where
  wf : WF s'
  ret_eq : ret = (s.tree.exec r).1
  tree_eq : s'.tree = (s.tree.exec r).2
  next_eq : s'.nextBlock.toInt = s.nextBlock.toInt + s.tree.cost r
  writes : ∃ ws p, s'.file = (s.file.pwrites ws).seekTo p ∧ ∀ w ∈ ws, WriteOK s r.inum w
  sync : InSync s → ¬ s.tree.Forgets r → InSync s'
  stale : InSync s → s.tree.Forgets r → ¬ InSync s'

/-- No request takes more than three blocks. -/
theorem Refines.next_le {s s' : Server} {r : Request} {ret : Int32} (h : Refines s r ret s') :
    s'.nextBlock.toInt ≤ s.nextBlock.toInt + 3 := by
  have hnext := h.next_eq
  have hcost := s.tree.cost_le_three r
  omega

/-- A request that is forgotten takes one block. -/
theorem Fs.Forgets.cost_eq {fs : Fs} {r : Request} (h : fs.Forgets r) : fs.cost r = 1 := by
  cases r with
  | creat pinum type name =>
      obtain ⟨slots, hp, hmiss, hfree, hfull, hlen, hd, hf⟩ := h
      have hadd : (addEntry slots name fs.freeInum).isNone = false := by
        rw [addEntry, SlotTable.insert_eq_none_iff.mpr hfull]
        simp only [if_pos hlen, Option.isNone_some]
      simp only [Fs.cost, hp, hmiss, hfree, hadd, hfull, hd, hf, ne_eq, not_true_eq_false,
        Bool.false_eq_true, or_self, if_false]
  | lookup _ _ => exact h.elim
  | stat _ => exact h.elim
  | write _ _ _ => exact h.elim
  | read _ _ => exact h.elim
  | unlink _ _ => exact h.elim

/-- A request that only moved the descriptor. -/
theorem Refines.of_seek {s : Server} {r : Request} {ret : Int32} (hwf : WF s) (p : Nat)
    (hexec : s.tree.exec r = (ret, s.tree)) (hcost : s.tree.cost r = 0) :
    Refines s r ret (s.seek p) where
  wf := hwf.seek p
  ret_eq := by rw [hexec]
  tree_eq := by rw [hexec, seek_tree]
  next_eq := by simp [hcost]
  writes := ⟨[], p, rfl, by simp⟩
  sync := fun h _ => h.log (l := []) (p := p) rfl (by simp) (fun _ _ => rfl) rfl
  stale := by
    intro _ hforget
    rw [hforget.cost_eq] at hcost
    exact absurd hcost (by decide)

/-- A reply without effect. -/
def Declines (s : Server) (r : Request) (res : Int32 × Server) : Prop :=
  ∃ ret q, res = (ret, s.seek q) ∧ s.tree.exec r = (ret, s.tree) ∧ s.tree.cost r = 0

theorem Declines.refines {s : Server} {r : Request} {res : Int32 × Server}
    (h : Declines s r res) (hwf : WF s) : Refines s r res.1 res.2 := by
  obtain ⟨ret, q, rfl, hexec, hcost⟩ := h
  exact Refines.of_seek hwf q hexec hcost

/-- A turn that leaves the file system as it is, whatever it replied. -/
structure Quiet (s s' : Server) : Prop where
  wf : WF s'
  tree_eq : s'.tree = s.tree
  sync : InSync s → InSync s'

theorem Quiet.of_seek {s : Server} (h : WF s) (p : Nat) : Quiet s (s.seek p) where
  wf := h.seek p
  tree_eq := seek_tree s p
  sync := fun hs => hs.log (l := []) (p := p) rfl (by simp) (fun _ _ => rfl) rfl

end Linux
end LfsXv6
