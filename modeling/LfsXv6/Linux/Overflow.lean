import LfsXv6.Linux.Rejection
import LfsXv6.Linux.Retransmission

/-!
# Overflow — block numbers whose byte offset fits an `int`

The offset of a block is computed as `x*BLOCKSIZE` in `int`.  While `next_block` stays below `2^19`
every offset that the server computes fits.  Nothing in the server looks at that bound: the log grows
by one block with every write, also to the same block of the same file, and the first request that
needs block `2^19` is answered with success.
-/

namespace LfsXv6
namespace Linux

open Lib

/-- `x*BLOCKSIZE` is computed without overflow. -/
def NoOverflow (x : Int32) : Prop := blockOff x = x.toInt * 4096

theorem noOverflow_of_fits {x : Int32} (h : Fits x) : NoOverflow x := by
  have hlit : (4096 : Int32).toInt = 4096 := by decide
  obtain ⟨h0, h1⟩ := h
  rw [NoOverflow, blockOff, toInt_mul_of_fits (by rw [hlit]; omega) (by rw [hlit]; omega), hlit]

/-- **Offsets.**  In every state that tolerated requests lead to from a fresh image, the offsets of
all blocks up to `next_block`, of every allocated inode and of every direct block in use are computed
without overflow, and none of them is negative. -/
theorem offsets_fit {stack : Directory} {xs : List Turn} {s : Server}
    (hrun : Run turn (fun s x => Tolerated s x.1) (format stack) xs s) :
    (∀ x : Int32, 0 ≤ x.toInt → x.toInt ≤ s.nextBlock.toInt → NoOverflow x ∧ 0 ≤ blockOff x) ∧
      (∀ i, s.Allocated i → NoOverflow (s.imap i) ∧ 0 ≤ blockOff (s.imap i)) ∧
      ∀ i k, s.Allocated i → (s.inode i).dpUsed k = 1 →
        NoOverflow ((s.inode i).dpointers k) ∧ 0 ≤ blockOff ((s.inode i).dpointers k) := by
  have hwf := WF.run_tolerated hrun (format_spec stack).1
  have hall : ∀ x, Fits x → NoOverflow x ∧ 0 ≤ blockOff x := by
    intro x hx
    have hno := noOverflow_of_fits hx
    refine ⟨hno, ?_⟩
    rw [hno]
    have := hx.1
    omega
  refine ⟨?_, ?_, ?_⟩
  · intro x h0 hle
    have hb := hwf.bounded
    simp only [Server.Bounded] at hb
    exact hall x ⟨h0, by omega⟩
  · intro i ha
    exact hall _ (hwf.fits (NodeWF.owns_inode ha))
  · intro i k ha hk
    exact hall _ (hwf.fits (NodeWF.owns_block ha hk))

theorem offsets_fit_creat :
    ∃ s, Run turn (fun s x => Tolerated s x.1) (format (default : Stack).direct)
        [(.creat 0 mfsRegularFile ⟨[97], by decide, by decide⟩, default)] s ∧
      NoOverflow s.nextBlock := by
  obtain ⟨s, hrun, hwf, _, _⟩ := run_of_requests (default : Stack).direct
    [(.creat 0 mfsRegularFile ⟨[97], by decide, by decide⟩, default)] (by decide +kernel) (by decide)
  have htol := WF.run_tolerated_of_admitted hrun (format_spec _).1
  have hnext := hwf.next
  exact ⟨s, htol, ((offsets_fit htol).1 s.nextBlock (by omega) (Int.le_refl _)).1⟩

/-! ## A log that grows -/

/-- Writing the same block again and again takes one block each time. -/
theorem WF.run_writes {s : Server} (h : WF s) {i block : Int32} {buffer : Block} (st : Stack)
    (hfix : s.tree.exec (.write i buffer block) = (0, s.tree)) (ha : s.Allocated i) (n : Nat)
    (hroom : (s.nextBlock.toInt + n) * 4096 < 2 ^ 31) :
    ∃ t, Run turn Admitted s (List.replicate n (.write i buffer block, st)) t ∧ WF t ∧
      t.tree = s.tree ∧ t.nextBlock.toInt = s.nextBlock.toInt + n := by
  induction n generalizing s with
  | zero => exact ⟨s, Run.nil s, h, rfl, by simp⟩
  | succ n ih =>
      have hcost : s.tree.cost (.write i buffer block) = 1 := by
        have hret : (s.tree.write i buffer block).1 = 0 := congrArg Prod.fst hfix
        rw [Fs.cost, if_pos hret]
      have haddr : Request.Addressed s (.write i buffer block) := Or.inr ha
      have hok : Admitted s (.write i buffer block, st) := by
        refine ⟨haddr, (h.bounded_iff_hasRoom haddr).mpr ?_⟩
        rw [Server.HasRoom, hcost]
        push_cast at hroom ⊢
        omega
      have href := h.turn_refines hok
      have htree : (turn s (.write i buffer block, st)).tree = s.tree := by
        rw [href.tree_eq, hfix]
      have hnext : (turn s (.write i buffer block, st)).nextBlock.toInt = s.nextBlock.toInt + 1 := by
        rw [href.next_eq, hcost]
        rfl
      have ha' : (turn s (.write i buffer block, st)).Allocated i := by
        rw [allocated_iff, htree]
        exact allocated_iff.mp ha
      obtain ⟨t, hrun, hwf, htree', hnext'⟩ := ih href.wf (by rw [htree]; exact hfix) ha' (by
        rw [hnext]
        push_cast at hroom
        omega)
      refine ⟨t, ?_, hwf, htree'.trans htree, ?_⟩
      · rw [List.replicate_succ]
        exact Run.cons hok hrun
      · rw [hnext', hnext]
        push_cast
        omega

/-- A fresh image, a file, and `2^19 - 11` writes to its first block bring `next_block` to
`2^19 - 1`.  The creation of a directory then takes the blocks `2^19 - 1` and `2^19`; it is answered
with 0, and the offset of the second one does not fit. -/
theorem not_offsets_fit :
    ¬ ∀ (xs : List Turn) (s : Server) (r : Request) (st : Stack),
      Run turn (fun s x => x.1.Addressed s) (format (default : Stack).direct) xs s →
      r.Addressed s → (serve s r st).1.inum = 0 →
      ∀ x : Int32, s.nextBlock.toInt ≤ x.toInt → x.toInt < (serve s r st).2.nextBlock.toInt →
        NoOverflow x := by
  intro hclaim
  let first : List Turn := [(.creat 0 mfsRegularFile ⟨[97], by decide, by decide⟩, default),
    (.write 1 (blockOf fun _ => 7) 0, default)]
  obtain ⟨s, hrun, hwf, htree, hnext⟩ := run_of_requests (default : Stack).direct first
    (by decide +kernel) (by decide)
  have hroom : s.nextBlock.toInt ≤ 14 := by simpa [first] using hnext
  have hlow := hwf.next
  obtain ⟨n, hn⟩ : ∃ n : Nat, s.nextBlock.toInt + n = 2 ^ 19 - 1 :=
    ⟨(2 ^ 19 - 1 - s.nextBlock.toInt).toNat, by omega⟩
  have hfix : s.tree.exec (.write 1 (blockOf fun _ => 7) 0) = (0, s.tree) := by
    have hmid : s.tree = ((Fs.init.execs
        [.creat 0 mfsRegularFile ⟨[97], by decide, by decide⟩]).write 1 (blockOf fun _ => 7) 0).2 := htree
    have hret : ((Fs.init.execs
        [.creat 0 mfsRegularFile ⟨[97], by decide, by decide⟩]).write 1 (blockOf fun _ => 7) 0).1 = 0 := by
      decide +kernel
    rw [Fs.exec, hmid, Fs.write_idem]
    exact Prod.ext hret rfl
  have ha : s.Allocated 1 := by
    rw [allocated_iff, htree, ← Option.isSome_iff_ne_none]
    decide +kernel
  obtain ⟨t, hrun', hwft, htreet, hnextt⟩ := hwf.run_writes default hfix ha n (by omega)
  have hall : Run turn (fun s x => x.1.Addressed s) (format (default : Stack).direct) _ t :=
    (hrun.append hrun').imp fun _ _ _ hadm => hadm.1
  -- the creation of a directory takes two blocks and succeeds
  have haddr : Request.Addressed t (.creat 0 mfsDirectory ⟨[98], by decide, by decide⟩) := by
    refine Or.inr (allocated_iff.mpr ?_)
    show t.tree 0 ≠ none
    rw [htreet, htree, ← Option.isSome_iff_ne_none]
    decide +kernel
  have hcost : t.tree.cost (.creat 0 mfsDirectory ⟨[98], by decide, by decide⟩) = 2 := by
    rw [htreet, htree]
    decide +kernel
  have hnext2 : (serve t (.creat 0 mfsDirectory ⟨[98], by decide, by decide⟩) default).2.nextBlock.toInt =
      t.nextBlock.toInt + 2 := by
    rw [hwft.serve_next haddr, hcost]
    rfl
  have hret : (serve t (.creat 0 mfsDirectory ⟨[98], by decide, by decide⟩) default).1.inum = 0 := by
    rcases hwft.creatServer_cases default haddr with ⟨ret, q, _, _, hzero⟩ | ⟨_, _, v, _, hreach⟩
    · rw [hcost] at hzero
      exact absurd hzero (by decide)
    · simp only [serve, hreach.eq, creatNode_fst]
      rw [if_neg (by decide)]
  have hlow : t.nextBlock.toInt ≤ (524288 : Int32).toInt := by
    rw [hnextt, hn]
    decide
  have hhigh : (524288 : Int32).toInt <
      (serve t (.creat 0 mfsDirectory ⟨[98], by decide, by decide⟩) default).2.nextBlock.toInt := by
    rw [hnext2, hnextt, hn]
    decide
  have hover := hclaim _ t _ default hall haddr hret 524288 hlow hhigh
  exact absurd hover (by unfold NoOverflow; decide)

end Linux
end LfsXv6
