import LfsXv6.Linux.Serving

/-!
# Ownership — who owns a block of the image, over whole runs

A block is referred to by the inode map (`none`) or by a direct pointer in use (`some k`) of an
allocated inode.  No two references name the same block, and a request writes only to the checkpoint
region, to blocks its own inode refers to, and past the end of the log.
-/

namespace LfsXv6
namespace Linux

open Lib

/-- The block that reference `a` of inode `i` names. -/
def Server.block (s : Server) (i : Int32) : Option (Fin 14) → Int32
  | none => s.imap i
  | some k => (s.inode i).dpointers k

/-- Inode `i` is allocated and reference `a` is in use. -/
def Server.Uses (s : Server) (i : Int32) : Option (Fin 14) → Prop
  | none => s.Allocated i
  | some k => s.Allocated i ∧ (s.inode i).dpUsed k = 1

section Owns

variable {s : Server} {i j : Int32}

theorem Server.Uses.owns {a : Option (Fin 14)} (h : s.Uses i a) : s.Owns i (s.block i a) := by
  cases a with
  | none => exact NodeWF.owns_inode h
  | some k => exact NodeWF.owns_block h.1 h.2

theorem Server.Owns.uses {x : Int32} (h : s.Owns i x) : ∃ a, s.Uses i a ∧ x = s.block i a := by
  obtain ⟨ha, rfl | ⟨k, hk, rfl⟩⟩ := h
  · exact ⟨none, ha, rfl⟩
  · exact ⟨some k, ⟨ha, hk⟩, rfl⟩

theorem WF.block_inj (h : WF s) {a b : Option (Fin 14)} (ha : s.Uses i a) (hb : s.Uses j b)
    (heq : s.block i a = s.block j b) : i = j ∧ a = b := by
  obtain rfl : i = j := h.disjoint i j _ ha.owns (heq ▸ hb.owns)
  refine ⟨rfl, ?_⟩
  cases a with
  | none =>
      cases b with
      | none => rfl
      | some k => exact absurd heq.symm ((h.node i hb.1).apart k hb.2)
  | some k =>
      cases b with
      | none => exact absurd heq ((h.node i ha.1).apart k ha.2)
      | some l => exact congrArg some ((h.node i ha.1).inj k l ha.2 hb.2 heq)

end Owns

/-- Byte offset `o` lies in the checkpoint region, in a block that inode `t` refers to, or past the
end of the log. -/
def Server.MayWrite (s : Server) (t : Int32) (o : Nat) : Prop :=
  o / 4096 < crSize ∨ (∃ a, s.Uses t a ∧ o / 4096 = blk (s.block t a)) ∨
    s.nextBlock.toInt ≤ (o / 4096 : Nat)

theorem WriteOK.mayWrite {s : Server} {t : Int32} {w : WriteCall} (h : WriteOK s t w) {o : Nat}
    (h₁ : w.off ≤ o) (h₂ : o < w.off + w.len) : s.MayWrite t o := by
  rcases h with hcr | ⟨b, hoff, hlen, hb⟩
  · exact Or.inl (by simp only [crSize] at hcr ⊢; omega)
  · obtain rfl : o / 4096 = b := by omega
    rcases hb with ⟨x, hx, hxb⟩ | hnext
    · obtain ⟨a, ha, rfl⟩ := hx.uses
      exact Or.inr (Or.inl ⟨a, ha, hxb⟩)
    · exact Or.inr (Or.inr hnext)

/-- **Block ownership.**  In every state of a run from a fresh image the references in use name
pairwise distinct blocks of the log; a further request never moves `next_block` back, and each byte it
writes is one it may write. -/
theorem block_ownership {stack : Directory} {xs : List Turn} {s : Server}
    (hrun : Run turn Admitted (format stack) xs s) :
    (∀ i j a b, s.Uses i a → s.Uses j b → s.block i a = s.block j b → i = j ∧ a = b) ∧
    (∀ i a, s.Uses i a →
      (crSize : Int) ≤ (s.block i a).toInt ∧ (s.block i a).toInt < s.nextBlock.toInt) ∧
    ∀ x, Admitted s x → s.nextBlock.toInt ≤ (turn s x).nextBlock.toInt ∧
      ∃ ws, (turn s x).file.trace = s.file.trace ++ ws ∧
        ∀ w ∈ ws, ∀ o, w.off ≤ o → o < w.off + w.len → s.MayWrite x.1.inum o := by
  have hwf := WF.run hrun (format_spec stack).1
  refine ⟨fun i j a b ha hb heq => hwf.block_inj ha hb heq, ?_, ?_⟩
  · intro i a ha
    exact (hwf.node i ha.owns.1).owned _ ha.owns
  · intro x hok
    have href := hwf.turn_refines hok
    refine ⟨?_, ?_⟩
    · rw [href.next_eq]
      omega
    · obtain ⟨ws, p, hfile, hws⟩ := href.writes
      refine ⟨ws, ?_, fun w hw o h₁ h₂ => (hws w hw).mayWrite h₁ h₂⟩
      rw [hfile, File.seekTo_trace, File.pwrites_trace]

theorem block_ownership_creat_write :
    ∃ s, Run turn Admitted (format (default : Stack).direct)
        [(.creat 0 mfsRegularFile ⟨[97], by decide, by decide⟩, default),
          (.write 1 (blockOf fun _ => 7) 0, default)] s ∧
      ∀ i j a b, s.Uses i a → s.Uses j b → s.block i a = s.block j b → i = j ∧ a = b := by
  obtain ⟨s, hrun, _⟩ := run_of_requests (default : Stack).direct
    [(.creat 0 mfsRegularFile ⟨[97], by decide, by decide⟩, default),
      (.write 1 (blockOf fun _ => 7) 0, default)] (by decide +kernel) (by decide)
  exact ⟨s, hrun, (block_ownership hrun).1⟩

end Linux
end LfsXv6
