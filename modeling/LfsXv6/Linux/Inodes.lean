import LfsXv6.Linux.Serving

/-!
# Inodes — the fields of a stored inode over whole runs

The fields of an inode mean what they should in every state of a run: the number is its own, the type
is one of two and stays while the number is allocated, pointers in use are those that are set, and the
size counts the blocks of a directory, or ends with the last block ever written to a file.
-/

namespace LfsXv6
namespace Linux

open Lib

/-! ## The blocks written since a file was created -/

/-- The blocks of inode `i` that were written with success, after one more turn: none while the number
is not allocated. -/
def noteWrite (i : Int32) (s : Server) (x : Turn) (w : Finset (Fin 14)) : Finset (Fin 14) :=
  if (turn s x).imap i = -1 then ∅
  else
    match x.1 with
    | .write j _ block =>
        if j = i ∧ (serve s x.1 x.2).1.inum = 0 then
          (blockIndex block).elim w fun k => insert k w
        else w
    | _ => w

/-- The blocks of inode `i` written in a list of turns since `i` was created. -/
def writtenSince (i : Int32) : Server → List Turn → Finset (Fin 14) → Finset (Fin 14)
  | _, [], w => w
  | s, x :: xs, w => writtenSince i (turn s x) xs (noteWrite i s x w)

/-- `w` are the blocks that file `i` has. -/
structure Fs.Wrote (fs : Fs) (i : Int32) (w : Finset (Fin 14)) : Prop where
  free : fs i = none → w = ∅
  file : ∀ size blocks, fs i = some (.file size blocks) → ∀ k, blocks k ≠ none ↔ k ∈ w

section Step

variable {fs : Fs} {i : Int32} {w : Finset (Fin 14)} {r : Request}

/-- A write to `i` that succeeds adds its block. -/
theorem Fs.Wrote.write (h : fs.Wrote i w) {buffer : Block} {block : Int32}
    (hret : (fs.write i buffer block).1 = 0) :
    (fs.write i buffer block).2.Wrote i ((blockIndex block).elim w fun k => insert k w) := by
  cases hi : fs i with
  | none =>
      simp only [Fs.write, hi] at hret
      exact absurd hret (by decide)
  | some nd =>
      cases nd with
      | dir slots =>
          simp only [Fs.write, hi] at hret
          exact absurd hret (by decide)
      | file size blocks =>
          cases hk : blockIndex block with
          | none =>
              simp only [Fs.write, hi, hk] at hret
              exact absurd hret (by decide)
          | some k =>
              simp only [Fs.write, hi, hk]
              refine ⟨fun hc => by simp at hc, ?_⟩
              intro size' blocks' heq j
              rw [Function.update_self, Option.some.injEq, Node.file.injEq] at heq
              rw [← heq.2]
              by_cases hj : j = k
              · simp [hj]
              · simp [hj, h.file size blocks hi j]

/-- What a request other than a successful write to `i` makes of `i`. -/
theorem Fs.exec_node (hnot : ∀ buffer block, r = .write i buffer block → (fs.exec r).1 ≠ 0) :
    (fs.exec r).2 i = none ∨ (fs i = none ∧ (fs.exec r).2 i = some (.file 0 fun _ => none)) ∨
      (∃ slots, (fs.exec r).2 i = some (.dir slots) ∧ ∀ size blocks, fs i ≠ some (.file size blocks)) ∨
        (fs.exec r).2 i = fs i := by
  cases r with
  | lookup _ _ => exact Or.inr (Or.inr (Or.inr rfl))
  | stat _ => exact Or.inr (Or.inr (Or.inr rfl))
  | read _ _ => exact Or.inr (Or.inr (Or.inr rfl))
  | write j buffer block =>
      refine Or.inr (Or.inr (Or.inr ?_))
      simp only [Fs.exec, Fs.write]
      split
      · rename_i size blocks k hj hk
        refine Function.update_of_ne ?_ _ _
        rintro rfl
        exact hnot buffer block rfl (by simp only [Fs.exec, Fs.write, hj, hk])
      · rfl
  | creat p type name =>
      rcases Fs.creat_cases fs p type name with ⟨slots, slots', hent⟩ | ⟨_, heq⟩
      swap
      · exact Or.inr (Or.inr (Or.inr (by rw [Fs.exec, heq])))
      have hparent : ∀ fs' : Fs, fs' = Function.update fs p (some (.dir slots')) → i ≠ fs.freeInum →
          fs' i = none ∨ (fs i = none ∧ fs' i = some (.file 0 fun _ => none)) ∨
            (∃ slots, fs' i = some (.dir slots) ∧ ∀ size blocks, fs i ≠ some (.file size blocks)) ∨
              fs' i = fs i := by
        rintro fs' rfl _
        by_cases hip : i = p
        · subst hip
          refine Or.inr (Or.inr (Or.inl ⟨slots', Function.update_self .., ?_⟩))
          rw [hent.parent]
          simp
        · exact Or.inr (Or.inr (Or.inr (Function.update_of_ne hip _ _)))
      rw [Fs.exec, hent.creat_eq]
      by_cases hif : i = fs.freeInum
      · subst hif
        have hfree := (Fs.freeInum_spec hent.free).2
        split
        · exact Or.inr (Or.inr (Or.inr (Function.update_of_ne hent.inum_ne _ _)))
        · by_cases htype : type = mfsDirectory
          · refine Or.inr (Or.inr (Or.inl ⟨newDir fs.freeInum p, ?_, by simp [hfree]⟩))
            simp only [Function.update_self, Fs.newNode, if_pos htype]
          · refine Or.inr (Or.inl ⟨hfree, ?_⟩)
            simp only [Function.update_self, Fs.newNode, if_neg htype]
      · split
        · exact hparent _ rfl hif
        · simp only [Function.update_of_ne hif]
          exact hparent _ rfl hif
  | unlink p name =>
      rcases Fs.unlink_cases fs p name with ⟨slots, j, hrem⟩ | ⟨_, heq⟩
      swap
      · exact Or.inr (Or.inr (Or.inr (by rw [Fs.exec, heq])))
      rw [Fs.exec, hrem.unlink_eq]
      by_cases hij : i = j
      · subst hij
        exact Or.inl (Function.update_self ..)
      · simp only [Function.update_of_ne hij]
        by_cases hip : i = p
        · subst hip
          refine Or.inr (Or.inr (Or.inl ⟨clearIn slots name, Function.update_self .., ?_⟩))
          rw [hrem.parent]
          simp
        · exact Or.inr (Or.inr (Or.inr (Function.update_of_ne hip _ _)))

theorem Fs.Wrote.exec (h : fs.Wrote i w)
    (hnot : ∀ buffer block, r = .write i buffer block → (fs.exec r).1 ≠ 0)
    (halive : (fs.exec r).2 i ≠ none) : (fs.exec r).2.Wrote i w := by
  refine ⟨fun hc => absurd hc halive, ?_⟩
  intro size blocks heq k
  rcases Fs.exec_node hnot with hgone | ⟨hfree, hnew⟩ | ⟨slots, hdir, _⟩ | hsame
  · exact absurd hgone halive
  · rw [hnew, Option.some.injEq, Node.file.injEq] at heq
    rw [← heq.2, h.free hfree]
    simp
  · rw [hdir] at heq
    exact absurd heq (by simp)
  · rw [hsame] at heq
    exact h.file size blocks heq k

end Step

/-- One turn of the server. -/
theorem WF.wrote_turn {s : Server} (h : WF s) {x : Turn} (hok : Admitted s x) {i : Int32}
    {w : Finset (Fin 14)} (hw : s.tree.Wrote i w) :
    (turn s x).tree.Wrote i (noteWrite i s x w) := by
  have href := h.turn_refines hok
  have hret := href.ret_eq
  rw [noteWrite]
  by_cases hfree : (turn s x).imap i = -1
  · rw [if_pos hfree]
    have hnone := tree_eq_none_iff.mpr hfree
    exact ⟨fun _ => rfl, fun size blocks heq => absurd (hnone.symm.trans heq) (by simp)⟩
  rw [if_neg hfree]
  have halive : (s.tree.exec x.1).2 i ≠ none := by
    rw [← href.tree_eq, Ne, tree_eq_none_iff]
    exact hfree
  rw [href.tree_eq]
  obtain ⟨r, st⟩ := x
  cases r with
  | write j buffer block =>
      simp only
      split
      · rename_i hwrite
        obtain ⟨rfl, hzero⟩ := hwrite
        rw [hret] at hzero
        exact hw.write hzero
      · rename_i hnot
        refine hw.exec ?_ halive
        intro buffer' block' heq hzero
        cases heq
        exact hnot ⟨rfl, hret.trans hzero⟩
  | lookup _ _ => exact hw.exec (by simp) halive
  | stat _ => exact hw.exec (by simp) halive
  | read _ _ => exact hw.exec (by simp) halive
  | creat _ _ _ => exact hw.exec (by simp) halive
  | unlink _ _ => exact hw.exec (by simp) halive

/-- Whole runs. -/
theorem WF.wrote_run {s t : Server} {xs : List Turn} (hrun : Run turn Admitted s xs t) (h : WF s)
    {i : Int32} {w : Finset (Fin 14)} (hw : s.tree.Wrote i w) :
    t.tree.Wrote i (writtenSince i s xs w) := by
  induction hrun generalizing w with
  | nil s => exact hw
  | cons hok _ ih => exact ih (h.turn_refines hok).wf (h.wrote_turn hok hw)

/-! ## The type -/

/-- A number that stays allocated keeps its type. -/
theorem WF.type_turn {s : Server} (h : WF s) {x : Turn} (hok : Admitted s x) {i : Int32}
    (ha : s.Allocated i) (ha' : (turn s x).Allocated i) :
    ((turn s x).inode i).type = (s.inode i).type := by
  have href := h.turn_refines hok
  have hkind : ∀ u : Server, u.Allocated i →
      ((u.inode i).type = mfsDirectory ↔ ∃ slots, u.tree i = some (.dir slots)) := by
    intro u hu
    rw [tree_of_allocated hu, nodeOf]
    split
    · rename_i hdir
      exact ⟨fun _ => ⟨_, rfl⟩, fun _ => hdir⟩
    · rename_i hdir
      refine ⟨fun hc => absurd hc hdir, ?_⟩
      rintro ⟨slots, hc⟩
      exact absurd hc (by simp)
  have hsame : (∃ slots, (turn s x).tree i = some (.dir slots)) ↔
      ∃ slots, s.tree i = some (.dir slots) := by
    have halive : (turn s x).tree i ≠ none := by
      rw [tree_of_allocated ha']
      exact Option.some_ne_none _
    have halloc : s.tree i ≠ none := by
      rw [tree_of_allocated ha]
      exact Option.some_ne_none _
    rw [href.tree_eq] at halive ⊢
    by_cases hnot : ∀ buffer block, x.1 = .write i buffer block → (s.tree.exec x.1).1 ≠ 0
    · rcases Fs.exec_node hnot with hgone | ⟨hfree, _⟩ | ⟨slots, hdir, hold⟩ | heq
      · exact absurd hgone halive
      · exact absurd hfree halloc
      · refine ⟨fun _ => ?_, fun _ => ⟨slots, hdir⟩⟩
        cases hnode : s.tree i with
        | none => exact absurd hnode halloc
        | some nd =>
            cases nd with
            | file size blocks => exact absurd hnode (hold size blocks)
            | dir slots => exact ⟨slots, rfl⟩
      · rw [heq]
    · push Not at hnot
      obtain ⟨buffer, block, hwrite, hzero⟩ := hnot
      rw [hwrite] at hzero ⊢
      simp only [Fs.exec, Fs.write] at hzero ⊢
      split at hzero
      · rename_i size blocks k hi hk
        simp only [hi, Function.update_self]
        simp
      · exact absurd hzero (by simp)
  have hiff := (hkind _ ha').trans (hsame.trans (hkind _ ha).symm)
  rcases (h.node i ha).type_ok with hdir | hfile
  · rw [hdir]
    exact hiff.mpr hdir
  · rw [hfile]
    refine ((href.wf.node i ha').type_ok).resolve_left fun hdir => ?_
    exact absurd ((hiff.mp hdir).symm.trans hfile) (by decide)

/-! ## Runs -/

theorem FileShape.size_eq_sup {n : Inode} (h : FileShape n) {w : Finset (Fin 14)}
    (hw : ∀ k, n.dpUsed k = 1 ↔ k ∈ w) :
    n.size.toInt = 4096 * (w.sup fun k => k.val + 1 : Nat) := by
  have hle : ∀ k ∈ w, 4096 * ((k : Nat) + 1 : Int) ≤ n.size.toInt :=
    fun k hk => h.used_le k ((hw k).mpr hk)
  rcases h.size_eq with hzero | ⟨k, hk, hsize⟩
  · have hempty : w = ∅ := by
      refine Finset.eq_empty_of_forall_notMem ?_
      intro k hk
      have := hle k hk
      rw [hzero] at this
      simp at this
      omega
    rw [hzero, hempty]
    rfl
  · have hsup : (w.sup fun k => k.val + 1) = k.val + 1 := by
      refine le_antisymm ?_ (Finset.le_sup (f := fun k : Fin 14 => k.val + 1) ((hw k).mp hk))
      refine Finset.sup_le ?_
      intro j hj
      have := hle j hj
      omega
    rw [hsize, hsup]
    push_cast
    rfl

/-- **Representation.**  In every state of a run from a fresh image, every stored inode has its own
number, one of the two types, and pointers in use that are set; a file's size ends with the last block
written since it was created, a directory's counts its blocks, which come first; `stat_server` reports
type and size; and the type stays while the number is allocated. -/
theorem inode_representation {stack : Directory} {xs : List Turn} {s : Server}
    (hrun : Run turn Admitted (format stack) xs s) {i : Int32} (ha : s.Allocated i) :
    (s.inode i).inum = i ∧
      ((s.inode i).type = mfsDirectory ∨ (s.inode i).type = mfsRegularFile) ∧
      (∀ k, ((s.inode i).dpUsed k = 0 ∨ (s.inode i).dpUsed k = 1) ∧
        ((s.inode i).dpUsed k = 1 ↔ (s.inode i).dpointers k ≠ -1)) ∧
      ((s.inode i).type = mfsRegularFile → (s.inode i).size.toInt =
        4096 * ((writtenSince i (format stack) xs ∅).sup fun k => k.val + 1 : Nat)) ∧
      ((s.inode i).type = mfsDirectory → ∃ m : Nat, 1 ≤ m ∧
        (∀ k, (s.inode i).dpUsed k = 1 ↔ k.val < m) ∧ (s.inode i).size.toInt = 4096 * m) ∧
      (∀ m st, (statServer s i m st).1 = 0 ∧
        (statServer s i m st).2.1 = ⟨(s.inode i).type, (s.inode i).size⟩) ∧
      ∀ ys t, Run turn (fun u y => Admitted u y ∧ (turn u y).Allocated i) s ys t →
        (t.inode i).type = (s.inode i).type := by
  obtain ⟨hwf₀, htree₀, _⟩ := format_spec stack
  have hwf := WF.run hrun hwf₀
  have hn := hwf.node i ha
  refine ⟨hn.inum_eq, hn.type_ok, fun k => ⟨hn.used_bit k, hn.used_iff k⟩, ?_, ?_, ?_, ?_⟩
  · intro hfile
    have hwrote : (format stack).tree.Wrote i ∅ := by
      rw [htree₀]
      refine ⟨fun _ => rfl, ?_⟩
      intro size blocks heq
      by_cases hi : i = 0
      · exact absurd (heq.symm.trans (if_pos hi)) (by simp)
      · exact absurd (heq.symm.trans (if_neg hi)) (by simp)
    have hnot : ¬ (s.inode i).type = mfsDirectory := by
      rw [hfile]
      decide
    have hnode : s.tree i = some (.file (s.inode i).size (fileBlocks s.file (s.inode i))) := by
      rw [tree_of_allocated ha, nodeOf, if_neg hnot]
    refine (hn.file hfile).size_eq_sup fun k => ?_
    rw [← (WF.wrote_run hrun hwf₀ hwrote).file _ _ hnode k, fileBlocks]
    by_cases hused : (s.inode i).dpUsed k = 1 <;> simp [hused]
  · intro hdir
    have hshape := hn.dir hdir
    refine ⟨(s.inode i).nblocks, hshape.nblocks_pos, hshape.used_iff, ?_⟩
    have hle := hshape.nblocks_le
    rw [hshape.size_eq, Int32.toInt_ofNat_of_lt (by omega)]
    push_cast
    rfl
  · intro m st
    rw [hwf.statServer_eq ha]
    exact ⟨rfl, rfl⟩
  · intro ys t hlater
    have hinv := hlater.invariant
      (I := fun u => WF u ∧ u.Allocated i ∧ (u.inode i).type = (s.inode i).type) ?_ ⟨hwf, ha, rfl⟩
    · exact hinv.2.2
    rintro u y ⟨hu, hau, htype⟩ ⟨hadm, hay⟩
    exact ⟨(hu.turn_refines hadm).wf, hay, (hu.type_turn hadm hau hay).trans htype⟩

theorem inode_representation_write :
    ∃ s, Run turn Admitted (format (default : Stack).direct)
        [(.creat 0 mfsRegularFile ⟨[97], by decide, by decide⟩, default),
          (.write 1 (blockOf fun _ => 7) 3, default)] s ∧
      s.Allocated 1 ∧ (s.inode 1).inum = 1 := by
  obtain ⟨s, hrun, _, htree, _⟩ := run_of_requests (default : Stack).direct
    [(.creat 0 mfsRegularFile ⟨[97], by decide, by decide⟩, default),
      (.write 1 (blockOf fun _ => 7) 3, default)] (by decide +kernel) (by decide)
  have ha : s.Allocated 1 := by
    rw [Server.Allocated, Ne, ← tree_eq_none_iff, htree, ← Ne, ← Option.isSome_iff_ne_none]
    decide +kernel
  exact ⟨s, hrun, ha, (inode_representation hrun ha).1⟩

end Linux
end LfsXv6
