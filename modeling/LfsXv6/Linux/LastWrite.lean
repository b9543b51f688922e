import LfsXv6.Linux.Serving

/-!
# LastWrite — a read returns the last write

In the abstract file system a block that was written keeps its contents until it is written again or
its inode number is given back; no other request touches it.  `read_server` returns what the abstract
file system holds.
-/

namespace LfsXv6
namespace Linux

open Lib

/-! ## The abstract file system -/

theorem blockIndex_inj {b b' : Int32} {k : Fin 14} (h : blockIndex b = some k)
    (h' : blockIndex b' = some k) : b = b' := by
  have hval : ∀ {c : Int32}, blockIndex c = some k → c.toInt = k.val := by
    intro c hc
    rw [blockIndex] at hc
    split at hc
    · exact absurd hc (by simp)
    · rename_i hrange
      rw [Option.some.injEq, Fin.ext_iff] at hc
      have hpos : (0 : Int32) ≤ c := Int32.not_lt.mp fun hlt => hrange (Or.inl hlt)
      rw [Int32.le_iff_toInt_le] at hpos
      have hzero : (0 : Int32).toInt = 0 := by decide
      rw [← hc]
      exact (Int.toNat_of_nonneg (by omega)).symm
  rw [← Int32.toInt_inj, hval h, hval h']

section Frame

variable {fs : Fs} {i b : Int32} {buf : Block}

theorem Fs.read_eq_some :
    fs.read i b = some buf ↔ ∃ size blocks k, fs i = some (.file size blocks) ∧
      blockIndex b = some k ∧ blocks k = some buf := by
  rw [Fs.read]
  cases hi : fs i with
  | none => simp
  | some nd =>
      cases nd with
      | dir slots => simp
      | file size blocks =>
          cases hk : blockIndex b with
          | none => simp
          | some k => simp

theorem Fs.read_of_eq {fs' : Fs} (h : fs' i = fs i) : fs'.read i b = fs.read i b := by
  rw [Fs.read, Fs.read, h]

/-- After a write that succeeds, the block reads as the buffer. -/
theorem Fs.read_write_self (h : (fs.write i buf b).1 = 0) : (fs.write i buf b).2.read i b = some buf := by
  rw [Fs.write] at h ⊢
  cases hi : fs i with
  | none => simp [hi] at h
  | some nd =>
      cases nd with
      | dir slots => simp [hi] at h
      | file size blocks =>
          cases hk : blockIndex b with
          | none => simp [hi, hk] at h
          | some k =>
              refine Fs.read_eq_some.mpr ⟨_, _, k, Function.update_self .., hk, ?_⟩
              rw [Function.update_self]

theorem Fs.read_write_other {j c : Int32} {buf' : Block} (h : fs.read i b = some buf)
    (hnot : j = i → c = b → (fs.write j buf' c).1 ≠ 0) : (fs.write j buf' c).2.read i b = some buf := by
  obtain ⟨size, blocks, k, hi, hk, hbuf⟩ := Fs.read_eq_some.mp h
  rw [Fs.write] at hnot ⊢
  cases hj : fs j with
  | none => exact h
  | some nd =>
      cases nd with
      | dir slots => exact h
      | file size' blocks' =>
          cases hl : blockIndex c with
          | none => exact h
          | some l =>
              by_cases hij : i = j
              · subst hij
                rw [hi, Option.some.injEq, Node.file.injEq] at hj
                obtain ⟨rfl, rfl⟩ := hj
                have hkl : k ≠ l := by
                  rintro rfl
                  refine hnot rfl (blockIndex_inj hl hk) ?_
                  rw [hi, hl]
                refine Fs.read_eq_some.mpr ⟨_, _, k, Function.update_self .., hk, ?_⟩
                rw [Function.update_of_ne hkl]
                exact hbuf
              · exact (Fs.read_of_eq (Function.update_of_ne hij _ _)).trans h

/-- A creation touches a directory and a free number, never a file. -/
theorem Fs.read_creat {p type : Int32} {name : Name} (h : fs.read i b = some buf) :
    (fs.creat p type name).2.read i b = some buf := by
  obtain ⟨size, blocks, k, hi, _, _⟩ := Fs.read_eq_some.mp h
  rcases Fs.creat_cases fs p type name with ⟨slots, slots', hent⟩ | ⟨_, heq⟩
  swap
  · rw [heq]
    exact h
  have hip : i ≠ p := by
    rintro rfl
    rw [hent.parent] at hi
    exact absurd hi (by simp)
  have hinum : i ≠ fs.freeInum := by
    intro hc
    rw [hc, (Fs.freeInum_spec hent.free).2] at hi
    exact absurd hi (by simp)
  rw [hent.creat_eq]
  split
  · exact (Fs.read_of_eq (Function.update_of_ne hip _ _)).trans h
  · refine (Fs.read_of_eq ?_).trans h
    simp only [Function.update_of_ne hinum, Function.update_of_ne hip]

/-- A removal touches a directory and the inode it takes away. -/
theorem Fs.read_unlink {p : Int32} {name : Name} (h : fs.read i b = some buf)
    (halive : (fs.unlink p name).2 i ≠ none) : (fs.unlink p name).2.read i b = some buf := by
  obtain ⟨size, blocks, k, hi, _, _⟩ := Fs.read_eq_some.mp h
  rcases Fs.unlink_cases fs p name with ⟨slots, j, hrem⟩ | ⟨_, heq⟩
  swap
  · rw [heq]
    exact h
  have hip : i ≠ p := by
    rintro rfl
    rw [hrem.parent] at hi
    exact absurd hi (by simp)
  rw [hrem.unlink_eq] at halive ⊢
  have hij : i ≠ j := by
    rintro rfl
    exact halive (Function.update_self ..)
  refine (Fs.read_of_eq ?_).trans h
  simp only [Function.update_of_ne hij, Function.update_of_ne hip]

/-- **Frame.**  A block keeps its contents through every request that neither writes it nor takes its
inode away. -/
theorem Fs.read_exec {r : Request} (h : fs.read i b = some buf)
    (hnot : ∀ buf', r = .write i buf' b → (fs.exec r).1 ≠ 0) (halive : (fs.exec r).2 i ≠ none) :
    (fs.exec r).2.read i b = some buf := by
  cases r with
  | lookup p name => exact h
  | stat j => exact h
  | read j c => exact h
  | write j buf' c =>
      refine Fs.read_write_other h ?_
      rintro rfl rfl
      exact hnot buf' rfl
  | creat p type name => exact Fs.read_creat h
  | unlink p name => exact Fs.read_unlink h halive

end Frame

/-! ## The server -/

/-- `read_server` returns the contents of a block that was written. -/
theorem WF.readServer_eq {s : Server} (h : WF s) {i b : Int32} {buf : Block}
    (hread : s.tree.read i b = some buf) (out : Block) (st : Stack) :
    ∃ q, readServer s i out b st = (0, buf, s.seek q) := by
  obtain ⟨size, blocks, k, hi, hk, hbuf⟩ := Fs.read_eq_some.mp hread
  have ha : s.Allocated i := by
    intro hfree
    rw [tree_eq_none_iff.mpr hfree] at hi
    exact absurd hi (by simp)
  rw [tree_of_allocated ha, nodeOf] at hi
  split at hi
  · exact absurd hi (by simp)
  · rename_i hdir
    rw [Option.some.injEq, Node.file.injEq] at hi
    rw [← hi.2, fileBlocks] at hbuf
    split at hbuf
    · rename_i hused
      rw [Option.some.injEq] at hbuf
      rw [← hbuf]
      exact h.readServer_file ha (((h.node i ha).type_ok).resolve_left hdir) hk hused out st
    · exact absurd hbuf (by simp)

/-- A turn that neither writes block `b` of inode `i` with success nor gives the number back. -/
def Spares (i b : Int32) (s : Server) (x : Turn) : Prop :=
  Admitted s x ∧ (∀ buf, x.1 = .write i buf b → (serve s x.1 x.2).1.inum ≠ 0) ∧
    (turn s x).imap i ≠ -1

/-- **Read returns the last write.**  After a write that was answered with 0, in every state that a
run reaches while the block is not written again and the number is not given back, `read_server`
answers 0 and fills the buffer with the bytes written. -/
theorem read_returns_last_write {stack : Directory} {xs ys : List Turn} {s t : Server} {i b : Int32}
    {buf : Block} {st : Stack} (hrun : Run turn Admitted (format stack) xs s)
    (hok : Admitted s (.write i buf b, st)) (hret : (serve s (.write i buf b) st).1.inum = 0)
    (hlater : Run turn (Spares i b) (turn s (.write i buf b, st)) ys t) (out : Block) (st' : Stack) :
    (readServer t i out b st').1 = 0 ∧ (readServer t i out b st').2.1 = buf := by
  have hwf := WF.run hrun (format_spec stack).1
  have href := hwf.turn_refines hok
  have hstart : (turn s (.write i buf b, st)).tree.read i b = some buf := by
    rw [href.tree_eq]
    refine Fs.read_write_self ?_
    rw [← hret]
    exact href.ret_eq.symm
  -- the block is kept by every turn of the second run
  obtain ⟨hwft, hread⟩ : WF t ∧ t.tree.read i b = some buf := by
    refine hlater.invariant (I := fun u => WF u ∧ u.tree.read i b = some buf) ?_
      ⟨href.wf, hstart⟩
    rintro u x ⟨hu, hkeep⟩ ⟨hadm, hnot, halive⟩
    have hstep := hu.turn_refines hadm
    refine ⟨hstep.wf, ?_⟩
    rw [hstep.tree_eq]
    refine Fs.read_exec hkeep ?_ ?_
    · intro buf' heq
      rw [← hstep.ret_eq]
      exact hnot buf' heq
    · rw [← hstep.tree_eq, Ne, tree_eq_none_iff]
      exact halive
  obtain ⟨q, heq⟩ := hwft.readServer_eq hread out st'
  rw [heq]
  exact ⟨rfl, rfl⟩

theorem read_returns_last_write_after_creat :
    ∃ s t, Run turn Admitted (format (default : Stack).direct)
        [(.creat 0 mfsRegularFile ⟨[97], by decide, by decide⟩, default)] s ∧
      Admitted s (.write 1 (blockOf fun _ => 7) 3, default) ∧
      Run turn (Spares 1 3) (turn s (.write 1 (blockOf fun _ => 7) 3, default))
        [(.creat 0 mfsRegularFile ⟨[98], by decide, by decide⟩, default)] t ∧
      (readServer t 1 (blockOf fun _ => 0) 3 default).2.1 = blockOf fun _ => 7 := by
  obtain ⟨s, hrun, hwf, htree, hnext⟩ := run_of_requests (default : Stack).direct
    [(.creat 0 mfsRegularFile ⟨[97], by decide, by decide⟩, default)] (by decide +kernel) (by decide)
  simp only [List.length_singleton] at hnext
  have hok : Admitted s (.write 1 (blockOf fun _ => 7) 3, default) :=
    hwf.admitted_of_tree (Or.inr (by rw [htree]; decide +kernel)) (by omega)
  have href := hwf.turn_refines hok
  have hnext' := href.next_le
  have hok' : Admitted (turn s (.write 1 (blockOf fun _ => 7) 3, default))
      (.creat 0 mfsRegularFile ⟨[98], by decide, by decide⟩, default) :=
    href.wf.admitted_of_tree (Or.inr (by rw [href.tree_eq, htree]; decide +kernel)) (by omega)
  have href' := href.wf.turn_refines hok'
  have hret : (serve s (.write 1 (blockOf fun _ => 7) 3) default).1.inum = 0 := by
    rw [href.ret_eq, htree]
    decide +kernel
  have hspare : Spares 1 3 (turn s (.write 1 (blockOf fun _ => 7) 3, default))
      (.creat 0 mfsRegularFile ⟨[98], by decide, by decide⟩, default) := by
    refine ⟨hok', by simp, ?_⟩
    rw [Ne, ← tree_eq_none_iff, href'.tree_eq, href.tree_eq, htree]
    decide +kernel
  have hlater : Run turn (Spares 1 3) _ [_] _ := Run.cons hspare (Run.nil _)
  exact ⟨s, _, hrun, hok, hlater, (read_returns_last_write hrun hok hret hlater _ _).2⟩

end Linux
end LfsXv6
