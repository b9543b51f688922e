import LfsXv6.Xv6.Lookup
import LfsXv6.Xv6.MkfsPlan

/-!
# MkfsLimits — images within the limits, and images that are not

Blocks that run out stop `mkfs`, inode numbers that run out do not: an image is within its limits just
when the tree has room in the inode table.  The sizes of directories are rounded up by a block too many
when the entries fill their blocks: then the last block of the directory is missing.
-/

namespace LfsXv6
namespace Xv6

open Lib Prog

/-! ## The inode counter -/

/-- The inode counter stays, and writes are added. -/
def Onward (s t : Image) : Prop := t.freeinode = s.freeinode ∧ s.writes ⊆ t.writes

theorem onward_refl (s : Image) : Onward s s := ⟨rfl, fun _ hw => hw⟩

theorem onward_trans (s t u : Image) (h : Onward s t) (h' : Onward t u) : Onward s u :=
  ⟨h'.1.trans h.1, List.Subset.trans h.2 h'.2⟩

section Onward

variable {sec inum : Nat} {d : Sector} {ip : Inode} {n : Dinode}

theorem onward_rsect : Moves Onward (rsect sec) := by
  intro s a t h
  unfold rsect at h
  split at h
  · cases h
    exact onward_refl s
  · cases h

theorem onward_wsect : Moves Onward (wsect sec d) := moves_assign fun _ => ⟨rfl, fun _ hw => hw⟩

theorem onward_record (w : ImageWrite) : Moves Onward (record w) :=
  moves_assign fun _ => ⟨rfl, fun _ hw => List.mem_cons_of_mem _ hw⟩

theorem onward_rinode : Moves Onward (rinode inum) :=
  moves_bind onward_trans onward_rsect fun _ => moves_pure onward_refl _

theorem onward_winode : Moves Onward (winode inum n) :=
  moves_bind onward_trans onward_rsect fun _ => moves_bind onward_trans onward_wsect fun _ => onward_record _

theorem onward_takeBlock : Moves Onward takeBlock :=
  moves_bind onward_trans (moves_look onward_refl _) fun _ =>
    moves_bind onward_trans (moves_assign fun _ => ⟨rfl, fun _ hw => hw⟩) fun _ =>
      moves_pure onward_refl _

theorem onward_fillSlot (k : Fin 13) : Moves Onward (fillSlot ip k) := by
  unfold fillSlot
  split
  · exact moves_bind onward_trans onward_takeBlock fun _ => moves_pure onward_refl _
  · exact moves_pure onward_refl _

theorem onward_appendBlock (bn : Nat) : Moves Onward (appendBlock ip bn) := by
  unfold appendBlock
  split
  · exact moves_bind onward_trans (onward_fillSlot _) fun _ => moves_pure onward_refl _
  · refine moves_bind onward_trans (onward_fillSlot _) fun ip => ?_
    refine moves_bind onward_trans onward_rsect fun _ => ?_
    split
    · exact moves_bind onward_trans onward_takeBlock fun _ => moves_bind onward_trans onward_wsect fun _ =>
        moves_bind onward_trans (onward_record _) fun _ => moves_pure onward_refl _
    · exact moves_pure onward_refl _

theorem onward_iappendLoop (ps : List (Nat × Nat)) (src : List UInt8) :
    Moves Onward (iappendLoop ip ps src) := by
  induction ps generalizing ip src with
  | nil => exact moves_pure onward_refl _
  | cons r ps ih =>
      obtain ⟨off, m⟩ := r
      unfold iappendLoop
      split
      · refine moves_bind onward_trans (onward_appendBlock _) fun r => ?_
        exact moves_bind onward_trans onward_rsect fun _ => moves_bind onward_trans onward_wsect fun _ =>
          moves_bind onward_trans (onward_record _) fun _ => ih _
      · exact moves_halt _

theorem onward_iappend (src : List UInt8) : Moves Onward (iappend inum src) :=
  moves_bind onward_trans onward_rinode fun _ =>
    moves_bind onward_trans (onward_iappendLoop _ _) fun _ => onward_winode

theorem onward_fixSize : Moves Onward (fixSize inum) :=
  moves_bind onward_trans onward_rinode fun _ => onward_winode

end Onward

/-- The inodes that are allocated are written. -/
structure Allocates (count : Nat) (s t : Image) : Prop where
  freeinode : t.freeinode = s.freeinode + count
  kept : s.writes ⊆ t.writes
  written : ∀ i, s.freeinode ≤ i → i < t.freeinode → .inode i ∈ t.writes

namespace Allocates

variable {a b : Nat} {s t u : Image}

theorem of_onward (h : Onward s t) : Allocates 0 s t := by
  refine ⟨h.1, h.2, ?_⟩
  intro i hlo hhi
  rw [h.1] at hhi
  omega

theorem trans (h : Allocates a s t) (h' : Allocates b t u) : Allocates (a + b) s u := by
  have h1 := h.freeinode
  have h2 := h'.freeinode
  refine ⟨by omega, List.Subset.trans h.kept h'.kept, ?_⟩
  intro i hlo hhi
  by_cases hi : i < t.freeinode
  · exact h'.kept (h.written i hlo hi)
  · exact h'.written i (by omega) hhi

theorem hostIalloc {type : Int16} {i : Nat} (h : Xv6.hostIalloc type s = .ok (i, t)) :
    i = s.freeinode ∧ Allocates 1 s t := by
  obtain ⟨_, _, hlook, h⟩ := bind_eq_ok h
  obtain ⟨rfl, rfl⟩ := look_eq_ok hlook
  obtain ⟨_, _, hset, h⟩ := bind_eq_ok h
  obtain rfl := assign_eq_ok hset
  obtain ⟨_, t', hwrite, h⟩ := bind_eq_ok h
  cases h
  have hon := onward_winode _ _ _ hwrite
  obtain ⟨_, _, _, hwrite⟩ := bind_eq_ok hwrite
  obtain ⟨_, _, _, hrecord⟩ := bind_eq_ok hwrite
  refine ⟨rfl, hon.1, hon.2, ?_⟩
  intro i hlo hhi
  have hi : i = s.freeinode := by
    have := hon.1
    simp only at this
    omega
  rw [hi, assign_eq_ok hrecord]
  exact List.mem_cons_self

theorem addEntries {cur : Nat} {es : Entries} {r : Unit} (h : Xv6.addEntries cur es s = .ok (r, t)) :
    Allocates es.count s t := by
  induction es generalizing cur s t r with
  | nil =>
      cases h
      exact of_onward (onward_refl s)
  | file name chunks rest ih =>
      obtain ⟨i, s₁, hi, h⟩ := bind_eq_ok h
      obtain ⟨_, s₂, hchunks, h⟩ := bind_eq_ok h
      obtain ⟨_, s₃, hentry, h⟩ := bind_eq_ok h
      have h₁ := (hostIalloc hi).2
      have h₂ := of_onward
        (moves_each onward_refl onward_trans (fun chunk => onward_iappend chunk) chunks _ _ _ hchunks)
      have h₃ := of_onward (onward_iappend _ _ _ _ hentry)
      exact ((h₁.trans h₂).trans h₃).trans (ih h)
  | dir name sub rest ihs ihr =>
      obtain ⟨i, s₁, hi, h⟩ := bind_eq_ok h
      obtain ⟨_, s₂, hdot, h⟩ := bind_eq_ok h
      obtain ⟨_, s₃, hdotdot, h⟩ := bind_eq_ok h
      obtain ⟨_, s₄, hsub, h⟩ := bind_eq_ok h
      obtain ⟨_, s₅, hfix, h⟩ := bind_eq_ok h
      obtain ⟨_, s₆, hentry, h⟩ := bind_eq_ok h
      have h₁ := (hostIalloc hi).2
      have h₂ := of_onward (onward_trans _ _ _ (onward_iappend _ _ _ _ hdot)
        (onward_iappend _ _ _ _ hdotdot))
      have h₃ := of_onward (onward_trans _ _ _ (onward_fixSize _ _ _ hfix) (onward_iappend _ _ _ _ hentry))
      exact (((h₁.trans h₂).trans (ihs hsub)).trans h₃).trans (ihr h)

theorem mkfsMain {root : Entries} {r : Unit} {st : Image}
    (h : Xv6.mkfsMain root Image.blank = .ok (r, st)) : ∃ t, Allocates (1 + root.count) freshImage t ∧
      st.freeinode = t.freeinode ∧ st.writes = t.writes := by
  unfold Xv6.mkfsMain at h
  rw [bind_of_ok mkfs_ok] at h
  obtain ⟨i, s₁, hi, h⟩ := bind_eq_ok h
  split at h
  · cases h
  obtain ⟨_, s₂, hdir, h⟩ := bind_eq_ok h
  obtain ⟨_, s₃, hlook, h⟩ := bind_eq_ok h
  obtain ⟨rfl, rfl⟩ := look_eq_ok hlook
  obtain ⟨_, s₄, hdot, hdir⟩ := bind_eq_ok hdir
  obtain ⟨_, s₅, hdotdot, hdir⟩ := bind_eq_ok hdir
  obtain ⟨_, s₆, hes, hfix⟩ := bind_eq_ok hdir
  have h₁ := (hostIalloc hi).2
  have h₂ := of_onward (onward_trans _ _ _ (onward_iappend _ _ _ _ hdot) (onward_iappend _ _ _ _ hdotdot))
  have h₃ := of_onward (onward_fixSize _ _ _ hfix)
  refine ⟨s₂, ((h₁.trans h₂).trans (addEntries hes)).trans h₃, ?_⟩
  unfold Xv6.hostBalloc at h
  split at h
  · cases h
    exact ⟨rfl, rfl⟩
  · cases h

end Allocates

/-! ## Limits -/

/-- The image respects the sizes in its superblock, and the areas of the disk. -/
structure WithinLimits (st : Image) : Prop where
  number : ∀ i, .inode i ∈ st.writes → i < imageSb.ninodes.toNat
  address : ∀ i, 1 ≤ i → i < st.freeinode → ∀ p, (dnode st.sect i).addr st.sect p < imageSb.size.toNat
  inodeWrite : ∀ i, .inode i ∈ st.writes → imageSb.InodeBlock (iblock i)
  dataWrite : ∀ b, .data b ∈ st.writes → imageSb.metaBlocks ≤ b ∧ b < imageSb.size.toNat

/-- A tree with too many inodes gets number 200, for which there is no room in the table. -/
theorem inode_200_written {root : Entries} {st : Image} (h : mkfsMain root Image.blank = .ok ((), st))
    (hmany : 199 < 1 + root.count) : ImageWrite.inode 200 ∈ st.writes := by
  obtain ⟨t, ht, _, hwrites⟩ := Allocates.mkfsMain h
  have hfree := ht.freeinode
  have hfresh : freshImage.freeinode = 1 := rfl
  rw [hwrites]
  exact ht.written 200 (by omega) (by omega)

theorem Built.withinLimits {st : Image} {P : Plan} (h : Built st P) (hn : P.n ≤ 200)
    (hsect : st.sect = st.disk) : WithinLimits st := by
  refine ⟨?_, ?_, ?_, h.underway.data⟩
  · intro i hi
    exact (h.numbers i hi).trans_le hn
  · intro i hi hlt p
    rw [h.inodes] at hlt
    rw [hsect]
    by_cases h0 : (dnode st.disk i).addr st.disk p = 0
    · rw [h0]
      decide
    · have hin := inside_disk (h.consistent_holding hi hlt (by omega)) (p := p) h0
      exact hin.2.trans_le h.high
  · intro i hi
    exact Superblock.inodeBlock_iblock ((h.numbers i hi).trans_le hn)

/-- The image is within its limits just when the tree has room in the inode table: `mkfs` stops when
blocks run out, and goes on when inode numbers do. -/
theorem mkfs_within_limits_iff {root : Entries} {st : Image}
    (h : mkfsMain root Image.blank = .ok ((), st)) :
    WithinLimits st ↔ 1 + root.count ≤ 199 := by
  constructor
  · intro hw
    by_contra hmany
    exact absurd (hw.number 200 (inode_200_written h (by omega))) (by decide)
  · intro hcount
    obtain ⟨hbuilt, hsect⟩ := (mkfsMain_ends hcount).of_eq_ok h
    refine hbuilt.withinLimits ?_ hsect
    rw [planMain_n]
    omega

/-! ## A directory of empty files -/

/-- `k` empty files with different names. -/
def emptyFiles : Nat → Entries
  | 0 => .nil
  | k + 1 => .file [97 + UInt8.ofNat (k / 16), 97 + UInt8.ofNat (k % 16)] [] (emptyFiles k)

section EmptyFiles

variable {st : Image} {P F : Plan} {k : Nat}

theorem count_emptyFiles : (emptyFiles k).count = k := by
  induction k with
  | zero => rfl
  | succ k ih =>
      rw [emptyFiles, Entries.count, ih]
      omega

theorem length_emptyFiles : (emptyFiles k).length = k := by
  induction k with
  | zero => rfl
  | succ k ih => rw [emptyFiles, Entries.length, ih]

theorem laid_emptyFiles {cur n : Nat} (h : Laid F cur n (emptyFiles k)) {j : Nat} (hlo : n ≤ j)
    (hhi : j < n + k) : F.node j = ⟨tFile, [], false⟩ := by
  induction k generalizing n with
  | zero => omega
  | succ k ih =>
      by_cases hj : j = n
      · rw [hj]
        exact h.1
      · exact ih h.2 (by omega) (by omega)

theorem emptyFiles_root : ((planMain (emptyFiles k)).node 1).bytes.length = 32 + 16 * k := by
  rw [planMain_root]
  simp only [List.length_append, length_hostDirent, length_direntBytes, Entries.length_numbered,
    length_emptyFiles]

theorem emptyFiles_node {j : Nat} (hlo : 2 ≤ j) (hhi : j < 2 + k) :
    (planMain (emptyFiles k)).node j = ⟨tFile, [], false⟩ :=
  laid_emptyFiles (planMain_laid (emptyFiles k)) hlo hhi

theorem emptyFiles_fits (hk : k ≤ 206) : (planMain (emptyFiles k)).Fits := by
  have hn : (planMain (emptyFiles k)).n = 2 + k := by rw [planMain_n, count_emptyFiles]
  have hzero : ∀ j, j ≠ 1 → j ∈ Finset.Ico 1 (2 + k) →
      blocksFor ((planMain (emptyFiles k)).node j).bytes.length = 0 := by
    intro j hj hmem
    obtain ⟨hlo, hhi⟩ := Finset.mem_Ico.mp hmem
    rw [emptyFiles_node (by omega) hhi, List.length_nil, blocksFor_zero]
  refine ⟨?_, ?_⟩
  · intro i hi hlt
    rw [hn] at hlt
    by_cases h1 : i = 1
    · rw [h1, emptyFiles_root]
      simp only [maxfile, bsize]
      omega
    · rw [emptyFiles_node (by omega) hlt]
      exact Nat.zero_le _
  · have hsum : (planMain (emptyFiles k)).blocks = blocksFor (32 + 16 * k) := by
      rw [Plan.blocks, hn, Finset.sum_eq_single 1, emptyFiles_root]
      · exact fun j hmem hj => hzero j hj hmem
      · exact fun hnot => absurd (Finset.mem_Ico.mpr ⟨le_rfl, by omega⟩) hnot
    have hle : blocksFor (32 + 16 * k) ≤ blocksFor 4096 := blocksFor_mono (by omega)
    have h4096 : blocksFor 4096 = 8 := by simp [blocksFor, bsize, ndirect]
    omega

/-- The last inode block has room for some inodes past the end of the table. -/
theorem Built.emptyFiles (h : Built st P) (hn : 1 < P.n) (hr : (P.node 1).rounded = false)
    (hcount : P.n + k ≤ 208) (hF : (planEntries 1 (emptyFiles k) P).Le F) :
    Ends (Xv6.addEntries 1 (emptyFiles k)) st (¬ F.Fits) fun _ t =>
      Built t (planEntries 1 (Xv6.emptyFiles k) P) := by
  induction k generalizing P st with
  | zero => exact ends_pure h
  | succ k ih =>
      have hrest := (Plan.le_planEntries (P := (P.alloc tFile).append 1 (hostDirent P.n
        [97 + UInt8.ofNat (k / 16), 97 + UInt8.ofNat (k % 16)])) 1 (Xv6.emptyFiles k)).trans hF
      have hcur : ((P.alloc tFile).node 1).rounded = false := by
        rw [Plan.alloc_node_ne (by omega)]
        exact hr
      refine ends_bind (h.hostIalloc (by omega) (.inr rfl)) ?_
      rintro _ t ⟨rfl, ht⟩
      refine ends_step rfl ?_
      refine ends_bind (ht.iappend le_rfl (by simp; omega) (by decide) hcur hrest) ?_
      intro _ u hu
      refine ih hu (by simp; omega) ?_ (by simp; omega) hF
      rw [Plan.append_node_self]
      exact hcur

theorem mkfsMain_emptyFiles (hk : k ≤ 206) : ∃ st, mkfsMain (emptyFiles k) Image.blank = .ok ((), st) := by
  have hends : Ends (mkfsMain (emptyFiles k)) Image.blank (¬ (planMain (emptyFiles k)).Fits)
      fun _ _ => True := by
    unfold mkfsMain
    refine ends_step mkfs_ok ?_
    refine ends_bind (freshImage_built.hostIalloc (by decide) (.inl rfl)) ?_
    rintro _ t ⟨rfl, ht⟩
    have hroot : emptyPlan.n = 1 := rfl
    rw [hroot, if_neg (not_not.mpr rfl)]
    refine ends_bind (Q := fun _ u => Built u (planMain (emptyFiles k))) ?_ ?_
    · refine ht.dots le_rfl (by decide) (by decide) rfl
        ((Plan.le_planEntries 1 (emptyFiles k)).trans (Plan.le_round (i := 1)))
        (f := fun _ => do
          addEntries 1 (emptyFiles k)
          fixSize 1) ?_
      intro u hu
      refine ends_bind (hu.emptyFiles (by decide) rfl ?_ Plan.le_round) ?_
      · show 2 + k ≤ 208
        omega
      · intro _ v hv
        refine hv.fixSize le_rfl ?_ (by decide) ?_
        · rw [planEntries_n]
          exact Nat.lt_add_right _ (by decide)
        · rw [planEntries_node_self _ (by decide)]
          rfl
    · intro _ u hu
      refine ends_step rfl ?_
      exact hu.hostBalloc.mono id fun _ _ _ => trivial
  obtain ⟨_, st, hrun, _⟩ := hends.returns (not_not.mpr (emptyFiles_fits hk))
  exact ⟨st, hrun⟩

end EmptyFiles

theorem mkfs_within_limits_iff_one_file :
    ∃ st, mkfsMain (emptyFiles 1) Image.blank = .ok ((), st) ∧ WithinLimits st := by
  obtain ⟨st, hrun⟩ := mkfsMain_emptyFiles (k := 1) (by decide)
  exact ⟨st, hrun, (mkfs_within_limits_iff hrun).mpr (by decide)⟩

/-- With 199 files the last one gets inode number 200. -/
theorem not_mkfs_within_limits :
    ∃ root st, mkfsMain root Image.blank = .ok ((), st) ∧ ¬ WithinLimits st := by
  obtain ⟨st, hrun⟩ := mkfsMain_emptyFiles (k := 199) (by decide)
  refine ⟨emptyFiles 199, st, hrun, ?_⟩
  intro hw
  exact absurd (hw.number 200 (inode_200_written hrun (by rw [count_emptyFiles]; decide))) (by decide)

/-! ## Missing blocks -/

/-- The size does not cover a block that is not there. -/
def PlanNode.Loose (x : PlanNode) : Prop := x.rounded = true → x.bytes.length % bsize ≠ 0

/-- No directory fills its blocks with its entries; a block has 32 of them. -/
def Entries.Loose : Entries → Prop
  | .nil => True
  | .file _ _ rest => rest.Loose
  | .dir _ sub rest => (2 + sub.length) % 32 ≠ 0 ∧ sub.Loose ∧ rest.Loose

/-- The image has the blocks that its sizes cover, each of them once, and marked in the bitmap; and so
the kernel allocates none when it reads. -/
structure NoHoles (st : Image) : Prop where
  mapped : ∀ i, 1 ≤ i → i < st.freeinode → Mapped st.sect (dnode st.sect i)
  once : ∀ i j p q, 1 ≤ i → i < st.freeinode → 1 ≤ j → j < st.freeinode →
    (dnode st.sect i).addr st.sect p ≠ 0 → (dnode st.sect i).addr st.sect p = (dnode st.sect j).addr st.sect q →
      i = j ∧ p = q
  inside : ∀ i p, 1 ≤ i → i < st.freeinode → (dnode st.sect i).addr st.sect p ≠ 0 →
    200 / ipb + 3 + (1024 / bpb + 1) ≤ (dnode st.sect i).addr st.sect p ∧
      (dnode st.sect i).addr st.sect p < st.freeblock
  bitmap : ∀ b, b < bpb → ((st.sect 28).bit b = true ↔ b < st.freeblock)
  reading : ∀ s : Bufs, s.disk = st.sect → s.busy = [] → ∀ i, 1 ≤ i → i < st.freeinode →
    (∀ dev off n r t, readi dev { dnode st.sect i with inum := i } off n s = .ok (r, t) →
      t.disk = s.disk) ∧
    ∀ name r t, dirlookupLoop name { dnode st.sect i with inum := i }
      (List.range (((dnode st.sect i).size.toNat + (bsize - 1)) / bsize)) s = .ok (r, t) → t.disk = s.disk

section Holes

variable {st : Image} {P F : Plan} {disk : Nat → Sector} {n : Dinode} {x : PlanNode}

theorem length_direntBytes_dots {i parent : Nat} (es : Entries) (m : Nat) :
    (hostDirent i [46] ++ hostDirent parent [46, 46] ++ direntBytes (es.numbered m)).length =
      16 * (2 + es.length) := by
  simp only [List.length_append, length_hostDirent, length_direntBytes, Entries.length_numbered]
  omega

/-- The nodes of a tree are loose just when its directories are. -/
theorem laid_loose {cur m : Nat} {es : Entries} (h : Laid F cur m es) :
    (∀ j, m ≤ j → j < m + es.count → (F.node j).Loose) ↔ es.Loose := by
  induction es generalizing cur m with
  | nil =>
      refine iff_of_true ?_ trivial
      intro j hlo hhi
      simp only [Entries.count] at hhi
      omega
  | file name chunks rest ih =>
      rw [Entries.Loose, ← ih h.2]
      simp only [Entries.count]
      constructor
      · intro hall j hlo hhi
        exact hall j (by omega) (by omega)
      · intro hall j hlo hhi
        by_cases hj : j = m
        · rw [hj, h.1]
          intro hc
          cases hc
        · exact hall j (by omega) (by omega)
  | dir name sub rest ihs ihr =>
      have hself : (F.node m).Loose ↔ (2 + sub.length) % 32 ≠ 0 := by
        simp only [PlanNode.Loose, h.1, length_direntBytes_dots, bsize, forall_const]
        omega
      rw [Entries.Loose, ← ihs h.2.1, ← ihr h.2.2, ← hself]
      simp only [Entries.count]
      constructor
      · intro hall
        exact ⟨hall m le_rfl (by omega), fun j hlo hhi => hall j (by omega) (by omega),
          fun j hlo hhi => hall j (by omega) (by omega)⟩
      · rintro ⟨hm, hsub, hrest⟩ j hlo hhi
        by_cases hj : j = m
        · rw [hj]
          exact hm
        · by_cases hjs : j < m + 1 + sub.count
          · exact hsub j (by omega) hjs
          · exact hrest j (by omega) (by omega)

theorem planMain_loose (root : Entries) :
    (∀ j, 1 ≤ j → j < (planMain root).n → ((planMain root).node j).Loose) ↔
      (2 + root.length) % 32 ≠ 0 ∧ root.Loose := by
  have hself : ((planMain root).node 1).Loose ↔ (2 + root.length) % 32 ≠ 0 := by
    simp only [PlanNode.Loose, planMain_root, length_direntBytes_dots, bsize, forall_const]
    omega
  rw [← hself, ← laid_loose (planMain_laid root), planMain_n]
  constructor
  · intro hall
    exact ⟨hall 1 le_rfl (by omega), fun j hlo hhi => hall j (by omega) hhi⟩
  · rintro ⟨h1, hrest⟩ j hlo hhi
    by_cases hj : j = 1
    · rw [hj]
      exact h1
    · exact hrest j (by omega) hhi

/-- The blocks under the size are there just when the node is loose. -/
theorem Describes.mapped_iff (h : Describes disk n x) (hroom : x.rounded = true → x.size ≤ maxfile * bsize) :
    Mapped disk n ↔ x.Loose := by
  have hsize := h.size_toNat
  have hshort := h.short
  unfold Mapped
  rw [hsize]
  cases hr : x.rounded with
  | false =>
      have hlen : x.size = x.bytes.length := by rw [PlanNode.size, hr]; rfl
      refine iff_of_true ?_ (fun hc => by rw [hr] at hc; cases hc)
      intro bn hbn
      rw [hlen] at hbn
      simp only [maxfile, bsize] at hshort hbn
      rw [h.filled.block bn (by simp only [maxfile]; omega)]
      simp only [bsize]
      omega
  | true =>
      have hlen : x.size = (x.bytes.length / bsize + 1) * bsize := by rw [PlanNode.size, hr]; rfl
      have hmax := hroom hr
      rw [hlen] at hmax ⊢
      simp only [maxfile, bsize] at hmax
      constructor
      · intro hmap _ hfull
        have hlast := hmap (x.bytes.length / bsize) (by simp only [bsize]; omega)
        rw [h.filled.block _ (by simp only [maxfile, bsize]; omega)] at hlast
        simp only [bsize] at hlast hfull
        omega
      · intro hloose bn hbn
        have hmod := hloose hr
        simp only [bsize] at hbn hmod
        rw [h.filled.block bn (by simp only [maxfile]; omega)]
        simp only [bsize]
        omega

theorem length_le_count (es : Entries) : es.length ≤ es.count := by
  induction es with
  | nil => exact le_rfl
  | file name chunks rest ih =>
      simp only [Entries.length, Entries.count]
      omega
  | dir name sub rest _ ihr =>
      simp only [Entries.length, Entries.count]
      omega

/-- Directories are short. -/
theorem laid_short {cur m : Nat} {es : Entries} (h : Laid F cur m es) {j : Nat} (hlo : m ≤ j)
    (hhi : j < m + es.count) (hr : (F.node j).rounded = true) :
    (F.node j).bytes.length ≤ 16 * (2 + es.count) := by
  induction es generalizing cur m with
  | nil =>
      simp only [Entries.count] at hhi
      omega
  | file name chunks rest ih =>
      simp only [Entries.count] at hhi ⊢
      by_cases hj : j = m
      · rw [hj, h.1] at hr
        cases hr
      · have := ih h.2 (by omega) (by omega)
        omega
  | dir name sub rest ihs ihr =>
      simp only [Entries.count] at hhi ⊢
      by_cases hj : j = m
      · have := length_le_count sub
        rw [hj, h.1, length_direntBytes_dots]
        omega
      · by_cases hjs : j < m + 1 + sub.count
        · have := ihs h.2.1 (by omega) hjs
          omega
        · have := ihr h.2.2 (by omega) (by omega)
          omega

theorem planMain_short {root : Entries} (hcount : 1 + root.count ≤ 199) {j : Nat} (hlo : 1 ≤ j)
    (hhi : j < (planMain root).n) (hr : ((planMain root).node j).rounded = true) :
    ((planMain root).node j).size ≤ maxfile * bsize := by
  have hbytes : ((planMain root).node j).bytes.length ≤ 16 * (2 + root.count) := by
    rw [planMain_n] at hhi
    by_cases hj : j = 1
    · have := length_le_count root
      rw [hj, planMain_root, length_direntBytes_dots]
      omega
    · exact laid_short (planMain_laid root) (by omega) hhi hr
  rw [PlanNode.size, hr, if_pos rfl]
  simp only [maxfile, bsize]
  omega

/-- An image that is built has holes only where a directory is full. -/
theorem Built.noHoles (h : Built st P) (hn : P.n ≤ 200) (hsect : st.sect = st.disk)
    (hroom : ∀ j, 1 ≤ j → j < P.n → (P.node j).rounded = true → (P.node j).size ≤ maxfile * bsize) :
    NoHoles st ↔ ∀ j, 1 ≤ j → j < P.n → (P.node j).Loose := by
  have hnode : ∀ i, 1 ≤ i → i < st.freeinode → Describes st.disk (dnode st.disk i) (P.node i) := by
    intro i hi hlt
    rw [h.inodes] at hlt
    exact h.node i hi hlt (by omega)
  have hmapped : ∀ i, 1 ≤ i → i < st.freeinode → (Mapped st.disk (dnode st.disk i) ↔ (P.node i).Loose) := by
    intro i hi hlt
    have hlt' := hlt
    rw [h.inodes] at hlt'
    exact (hnode i hi hlt).mapped_iff (hroom i hi hlt')
  constructor
  · intro hno j hlo hhi
    rw [← h.inodes] at hhi
    have := hno.mapped j hlo hhi
    rw [hsect] at this
    exact (hmapped j hlo hhi).mp this
  intro hloose
  have hmap : ∀ i, 1 ≤ i → i < st.freeinode → Mapped st.disk (dnode st.disk i) := by
    intro i hi hlt
    refine (hmapped i hi hlt).mpr (hloose i hi ?_)
    rwa [← h.inodes]
  have hrefs : ∀ i p, 1 ≤ i → i < st.freeinode →
      refs imageSb st.disk (dnode st.disk) (i, p) = (dnode st.disk i).addr st.disk p := by
    intro i p hi hlt
    refine if_pos ⟨?_, (hnode i hi hlt).allocated⟩
    rw [h.inodes] at hlt
    exact lt_of_lt_of_le hlt hn
  have hsize : ∀ i, 1 ≤ i → i < st.freeinode → (dnode st.disk i).size.toNat ≤ maxfile * bsize := by
    intro i hi hlt
    have hd := hnode i hi hlt
    rw [hd.size_toNat]
    cases hr : (P.node i).rounded with
    | false =>
        rw [PlanNode.size, hr]
        exact hd.short
    | true => exact hroom i hi (by rwa [← h.inodes]) hr
  refine ⟨?_, ?_, ?_, ?_, ?_⟩
  · rw [hsect]
    exact hmap
  · intro i j p q hi hlti hj hltj hne heq
    rw [hsect] at hne heq
    rw [← hrefs i p hi hlti] at hne heq
    rw [← hrefs j q hj hltj] at heq
    exact Prod.mk.inj (h.consistent.ledger.once _ _ hne heq)
  · intro i p hi hlt hne
    rw [hsect] at hne ⊢
    rw [h.inodes] at hlt
    exact inside_disk (h.consistent_holding hi hlt (by omega)) hne
  · intro b _
    rw [hsect, Image.disk, Function.update_self, bit_firstBits]
    exact decide_eq_true_iff
  · intro s hdisk hbusy i hi hlt
    rw [hsect] at hdisk ⊢
    have hmap' : Mapped s.disk (dnode st.disk i) := by
      rw [hdisk]
      exact hmap i hi hlt
    constructor
    · intro dev off n r t hrun
      have hread : ∃ r, readi dev { dnode st.disk i with inum := i } off n s = .ok ((r, _), s) :=
        readi_of_mapped hbusy (hsize i hi hlt) hmap' dev off n
      obtain ⟨r', hread⟩ := hread
      rw [hread] at hrun
      cases hrun
      rfl
    · intro name r t hrun
      have hlook : ∃ r, dirlookupLoop name { dnode st.disk i with inum := i } _ s = .ok ((r, _), s) :=
        dirlookupLoop_of_mapped hbusy (hsize i hi hlt) hmap' name
      obtain ⟨r', hlook⟩ := hlook
      have hrun' := hlook.symm.trans hrun
      cases hrun'
      rfl

end Holes

/-- A tree within the limits gives an image without holes just when no directory fills its blocks: a
directory of 30 entries, besides `"."` and `".."`, gets a size of two blocks and has one. -/
theorem mkfs_no_holes_iff {root : Entries} {st : Image} (h : mkfsMain root Image.blank = .ok ((), st))
    (hcount : 1 + root.count ≤ 199) :
    NoHoles st ↔ (2 + root.length) % 32 ≠ 0 ∧ root.Loose := by
  obtain ⟨hbuilt, hsect⟩ := (mkfsMain_ends hcount).of_eq_ok h
  have hn : (planMain root).n ≤ 200 := by
    rw [planMain_n]
    omega
  rw [hbuilt.noHoles hn hsect fun j hlo hhi => planMain_short hcount hlo hhi, planMain_loose]

theorem mkfs_no_holes_iff_one_file :
    ∃ st, mkfsMain (emptyFiles 1) Image.blank = .ok ((), st) ∧ NoHoles st := by
  obtain ⟨st, hrun⟩ := mkfsMain_emptyFiles (k := 1) (by decide)
  refine ⟨st, hrun, (mkfs_no_holes_iff hrun (by decide)).mpr ⟨by decide, trivial⟩⟩

/-- The root directory with 30 files has size 1024 and one block. -/
theorem not_mkfs_no_holes : ∃ root st, mkfsMain root Image.blank = .ok ((), st) ∧ 1 + root.count ≤ 199 ∧
    ¬ NoHoles st := by
  obtain ⟨st, hrun⟩ := mkfsMain_emptyFiles (k := 30) (by decide)
  have hcount : 1 + (emptyFiles 30).count ≤ 199 := by decide
  refine ⟨emptyFiles 30, st, hrun, hcount, ?_⟩
  intro hno
  obtain ⟨hbuilt, hsect⟩ := (mkfsMain_ends hcount).of_eq_ok hrun
  have hloose := (hbuilt.noHoles (by rw [planMain_n]; omega) hsect
    fun j hlo hhi => planMain_short hcount hlo hhi).mp hno 1 le_rfl (by rw [planMain_n]; omega)
  refine hloose ?_ ?_
  · rw [planMain_root]
  · rw [emptyFiles_root]
    decide

end Xv6
end LfsXv6
