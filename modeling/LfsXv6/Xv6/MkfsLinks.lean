import LfsXv6.Xv6.MkfsLookup
import LfsXv6.Xv6.Paths
import LfsXv6.Xv6.Unlink

/-!
# MkfsLinks — link counts

The kernel counts the entry `".."` of a subdirectory as a link to its parent: `create` adds it and
`sys_unlink` takes it away.  `mkfs` gives every inode one link.  The image of a tree is compared here with
the disk of a kernel that has made the same tree, and removed from with `sys_unlink`.
-/

namespace LfsXv6
namespace Xv6

open Lib Prog

/-! ## The tree in the kernel -/

/-- The entries of a tree below the directory with these elements, with their types. -/
def Entries.paths (dir : List (List UInt8)) : Entries → List (List (List UInt8) × Int16)
  | .nil => []
  | .file name _ rest => (dir ++ [name], tFile) :: rest.paths dir
  | .dir name sub rest => (dir ++ [name], tDir) :: (sub.paths (dir ++ [name]) ++ rest.paths dir)

/-- The call that makes an entry. -/
def makeEntry (dev : Devsw) (cwd : Slot) (x : List (List UInt8) × Int16) : Prog Kernel Int32 :=
  if x.2 = tDir then sysMkdir dev cwd (pathOf x.1) else sysCreat dev cwd (pathOf x.1)

/-- Calls that return 0, one after the other. -/
inductive Returns {α : Type} (call : α → Prog Kernel Int32) : Kernel → List α → Kernel → Prop
  | nil {s : Kernel} : Returns call s [] s
  | cons {s u t : Kernel} {x : α} {xs : List α} :
      call x s = .ok (0, u) → Returns call u xs t → Returns call s (x :: xs) t

/-- A kernel on an empty file system: the root, which has one link, is the only inode, and its entries are
`.` and `..` at most. -/
structure Pristine (sb : Superblock) (s : Kernel) : Prop where
  accounted : Accounted sb s
  refs : ∀ i, 0 ≤ (s.icache i).ref
  few : sb.ninodes.toNat ≤ 2 ^ 16
  number : rootino < sb.ninodes.toNat
  type : (dnode s.bufs.disk rootino).type = tDir
  nlink : (dnode s.bufs.disk rootino).nlink = 1
  table : Table s.bufs.disk (dnode s.bufs.disk rootino)
  free : ∀ i, i < sb.ninodes.toNat → i ≠ rootino → (dnode s.bufs.disk i).type = 0
  dots : ∀ k, k < maxentries → (entryAt s.bufs.disk (dnode s.bufs.disk rootino) k).inum ≠ 0 →
    (entryAt s.bufs.disk (dnode s.bufs.disk rootino) k).inum.toNat = rootino ∧
      IsDots (entryAt s.bufs.disk (dnode s.bufs.disk rootino) k).name

/-- The link counts of the image of a tree are those on the disk of a kernel that has made the tree, and so
a directory of the tree has one link when all its entries have been unlinked, in whatever order, and
always one at least. -/
structure LinksMatch (dev : Devsw) (root : Entries) (image built : Nat → Sector) : Prop where
  made : ∀ names i child, walk 1 root 2 names = some (i, child) →
    ∃ j, resolve built rootino names = some j ∧ (dnode image i).nlink = (dnode built j).nlink
  unlinked : ∀ s t cwd order, AtRest image s → (∀ f, 0 ≤ (s.icache f).ref) → order.Nodup →
    (∀ names ∈ order, names ≠ [] ∧ ∃ x, walk 1 root 2 names = some x) →
    Returns (fun names => sysUnlink dev cwd (pathOf names)) s order t →
    ∀ names i sub, walk 1 root 2 names = some (i, .dir sub) → names ∉ order →
      1 ≤ (dnode t.bufs.disk i).nlink ∧
        ((∀ name x, walk 1 root 2 (names ++ [name]) = some x → names ++ [name] ∈ order) →
          (dnode t.bufs.disk i).nlink = 1)

/-- No entry is a directory. -/
def Entries.Flat : Entries → Prop
  | .nil => True
  | .file _ _ rest => rest.Flat
  | .dir _ _ _ => False

/-- The number of subdirectories. -/
def Entries.subdirs : Entries → Nat
  | .nil => 0
  | .file _ _ rest => rest.subdirs
  | .dir _ _ rest => rest.subdirs + 1

/-- An entry that is a directory in the root. -/
def IsTop (x : List (List UInt8) × Int16) : Prop := x.2 = tDir ∧ x.1.length = 1

instance : DecidablePred IsTop := fun _ => inferInstanceAs (Decidable (_ ∧ _))

section Trees

variable {es : Entries} {dir names : List (List UInt8)} {name : List UInt8} {n i : Nat} {child : Child}

theorem flat_of_subdirs (h : es.subdirs = 0) : es.Flat := by
  induction es with
  | nil => trivial
  | file name chunks rest ih => exact ih h
  | dir name sub rest _ _ => cases h

theorem subdirs_of_flat (h : es.Flat) : es.subdirs = 0 := by
  induction es with
  | nil => rfl
  | file name chunks rest ih => exact ih h
  | dir name sub rest _ _ => exact h.elim

theorem length_paths (es : Entries) (dir : List (List UInt8)) : (es.paths dir).length = es.count := by
  induction es generalizing dir with
  | nil => rfl
  | file name chunks rest ih =>
      simp only [Entries.paths, Entries.count, List.length_cons, ih]
      omega
  | dir name sub rest ihs ihr =>
      simp only [Entries.paths, Entries.count, List.length_cons, List.length_append, ihs, ihr]
      omega

/-- Only the entries of the root itself have one element. -/
theorem countP_paths (es : Entries) (dir : List (List UInt8)) :
    (es.paths dir).countP (fun x => IsTop x) = if dir = [] then es.subdirs else 0 := by
  induction es generalizing dir with
  | nil => simp [Entries.paths, Entries.subdirs]
  | file name chunks rest ih =>
      have hnot : ¬ IsTop (dir ++ [name], tFile) := fun h => absurd h.1 (by decide : tFile ≠ tDir)
      rw [Entries.paths, List.countP_cons_of_neg (by simpa using hnot), ih, Entries.subdirs]
  | dir name sub rest ihs ihr =>
      have hsub : (sub.paths (dir ++ [name])).countP (fun x => IsTop x) = 0 := by
        rw [ihs, if_neg (by simp)]
      rw [Entries.paths, List.countP_cons, List.countP_append, hsub, ihr, Entries.subdirs]
      by_cases hdir : dir = []
      · simp [hdir, IsTop]
      · have hnot : ¬ IsTop (dir ++ [name], tDir) := by
          intro h
          have hlen := h.2
          simp only [List.length_append, List.length_cons, List.length_nil] at hlen
          exact hdir (List.length_eq_zero_iff.mp (by omega))
        simp [hdir, hnot]

theorem mem_paths (hnamed : es.Named) (hdir : ∀ name ∈ dir, GoodName name)
    {x : List (List UInt8) × Int16} (hx : x ∈ es.paths dir) :
    x.1 ≠ [] ∧ (∀ name ∈ x.1, GoodName name) ∧ (es.Flat → dir = [] → ∃ name, x = ([name], tFile)) := by
  induction es generalizing dir with
  | nil => cases hx
  | file name chunks rest ih =>
      rcases List.mem_cons.mp hx with rfl | hx
      · refine ⟨by simp, ?_, fun _ hd => ⟨name, by rw [hd]; rfl⟩⟩
        intro y hy
        rcases List.mem_append.mp hy with hy | hy
        · exact hdir y hy
        · rw [List.mem_singleton.mp hy]
          exact hnamed.1
      · exact ih hnamed.2 hdir hx
  | dir name sub rest ihs ihr =>
      have hsub : ∀ y ∈ dir ++ [name], GoodName y := by
        intro y hy
        rcases List.mem_append.mp hy with hy | hy
        · exact hdir y hy
        · rw [List.mem_singleton.mp hy]
          exact hnamed.1
      rcases List.mem_cons.mp hx with rfl | hx
      · exact ⟨by simp, hsub, fun hflat _ => hflat.elim⟩
      rcases List.mem_append.mp hx with hx | hx
      · obtain ⟨hne, hgood, _⟩ := ihs hnamed.2.1 hsub hx
        exact ⟨hne, hgood, fun hflat _ => hflat.elim⟩
      · obtain ⟨hne, hgood, _⟩ := ihr hnamed.2.2 hdir hx
        exact ⟨hne, hgood, fun hflat _ => hflat.elim⟩

/-- A name that leads somewhere is one of the entries. -/
theorem find_paths (hflat : es.Flat) (hf : es.find name n = some (i, child)) :
    ([name], tFile) ∈ es.paths [] ∧ ∃ bytes, child = .file bytes := by
  induction es generalizing n with
  | nil => cases hf
  | file name' chunks rest ih =>
      simp only [Entries.find] at hf
      split at hf
      · rename_i heq
        cases hf
        rw [heq]
        exact ⟨List.mem_cons_self, _, rfl⟩
      · obtain ⟨hmem, hfile⟩ := ih hflat hf
        exact ⟨List.mem_cons_of_mem _ hmem, hfile⟩
  | dir name' sub rest _ _ => exact hflat.elim

/-- In a flat tree a path is empty, or one name. -/
theorem walk_flat (hflat : es.Flat) (hwalk : walk 1 es 2 names = some (i, child)) :
    (names = [] ∧ i = 1 ∧ child = .dir es) ∨
      ∃ name bytes, names = [name] ∧ child = .file bytes ∧ es.find name 2 = some (i, child) := by
  cases names with
  | nil =>
      cases hwalk
      exact .inl ⟨rfl, rfl, rfl⟩
  | cons name names =>
      refine .inr ?_
      simp only [walk] at hwalk
      cases hfind : es.find name 2 with
      | none =>
          rw [hfind] at hwalk
          cases hwalk
      | some found =>
          obtain ⟨j, kid⟩ := found
          obtain ⟨_, bytes, rfl⟩ := find_paths hflat hfind
          rw [hfind] at hwalk
          simp only at hwalk
          split at hwalk
          · rename_i hnil
            cases hwalk
            exact ⟨name, bytes, by rw [hnil], rfl, hfind⟩
          · cases hwalk

/-- Paths of a flat tree are names of files. -/
theorem flat_order {order : List (List (List UInt8))} (hflat : es.Flat)
    (h : ∀ names ∈ order, names ≠ [] ∧ ∃ x, walk 1 es 2 names = some x) :
    ∃ files : List (List UInt8), order = files.map (fun name => [name]) ∧
      ∀ name ∈ files, ∃ i child, es.find name 2 = some (i, child) := by
  induction order with
  | nil => exact ⟨[], rfl, fun _ hf => absurd hf List.not_mem_nil⟩
  | cons names order ih =>
      obtain ⟨files, rfl, hfiles⟩ := ih fun y hy => h y (List.mem_cons_of_mem _ hy)
      obtain ⟨hne, ⟨i, child⟩, hwalk⟩ := h names List.mem_cons_self
      rcases walk_flat hflat hwalk with ⟨hnil, _, _⟩ | ⟨name, _, rfl, _, hfind⟩
      · exact absurd hnil hne
      · refine ⟨name :: files, rfl, fun y hy => ?_⟩
        rcases List.mem_cons.mp hy with rfl | hy
        · exact ⟨i, child, hfind⟩
        · exact hfiles y hy

end Trees

/-! ## Making the tree -/

section Made

variable {sb : Superblock} {s t : Kernel} {dev : Devsw} {cwd : Slot} {l : List (Slot × Nat)} {m k : Nat}
variable {names : List (List UInt8)} {name : List UInt8} {disk : Nat → Sector} {d e : Nat}

/-- The kernel holds the current directory. -/
def held (s : Kernel) (cwd : Slot) : List (Slot × Nat) := [(cwd, (s.icache cwd).node.inum)]

theorem Pristine.progress (h : Pristine sb s) (hcwd : 0 < (s.icache cwd).ref) :
    Progress sb s (held s cwd) 0 0 := by
  have hone : (1 : Int16).toInt = 1 := rfl
  refine ⟨h.accounted, ⟨fun i => ?_, fun x hx => by rw [List.mem_singleton.mp hx]⟩,
    ⟨⟨h.few, ⟨h.number, by rw [h.nlink]; decide⟩, ?_, ?_⟩, h.type, by rw [h.nlink]; rfl, ?_, ?_⟩⟩
  · have hcount : ((held s cwd).map Prod.fst).count i = if cwd = i then 1 else 0 := by
      simp [held, List.count_singleton]
    rw [hcount]
    split
    · rename_i hi
      rw [← hi]
      exact_mod_cast hcwd
    · exact h.refs i
  · intro d hd hdir
    by_cases hroot : d = rootino
    · rw [hroot]
      exact h.table
    · rw [h.free d hd hroot] at hdir
      exact absurd hdir (by decide)
  · intro d hd hdir k hk hused
    by_cases hroot : d = rootino
    · rw [hroot] at hused ⊢
      rw [(h.dots k hk hused).1]
      exact ⟨h.number, by rw [h.type]; decide, by rw [h.nlink]; decide⟩
    · rw [h.free d hd hroot] at hdir
      exact absurd hdir (by decide)
  · intro i hi ht
    by_cases hroot : i = rootino
    · rw [hroot, h.nlink, hone]
      decide
    · exact absurd (h.free i hi hroot) ht
  · intro d hd hdir k hk hr
    by_cases hroot : d = rootino
    · rw [hroot] at hr ⊢
      refine (h.dots k hk ?_).2
      intro h0
      rw [h0] at hr
      exact absurd hr (by decide)
    · rw [h.free d hd hroot] at hdir
      exact absurd hdir (by decide)

theorem zero_notMem_pathOf (hgood : ∀ name ∈ names, GoodName name) : 0 ∉ pathOf names := by
  intro hmem
  rcases List.mem_cons.mp hmem with h | hmem
  · exact absurd h (by decide)
  · induction names with
    | nil => simp at hmem
    | cons name names ih =>
        have hname := (hgood name List.mem_cons_self).nonzero
        cases names with
        | nil =>
            simp only [List.intercalate, List.intersperse, List.flatten_cons, List.flatten_nil,
              List.append_nil] at hmem
            exact hname hmem
        | cons name' names =>
            have hpath : List.intercalate [slash] (name :: name' :: names) =
                name ++ (slash :: List.intercalate [slash] (name' :: names)) := by
              simp [List.intercalate, List.intersperse]
            rw [hpath] at hmem
            rcases List.mem_append.mp hmem with hmem | hmem
            · exact hname hmem
            rcases List.mem_cons.mp hmem with h | hmem
            · exact absurd h (by decide)
            · exact ih (fun y hy => hgood y (List.mem_cons_of_mem _ hy)) (List.mem_cons_of_mem _ hmem) hmem

/-- Names of the tree do not lead back to the root. -/
theorem Making.parent_ne_root (h : Making sb disk m k) (hgood : ∀ name ∈ names, GoodName name)
    (he : e < sb.ninodes.toNat) (hfar : e ≠ rootino ∨ 2 ≤ names.length)
    (hp : parentOf disk e names = some (d, name)) : d ≠ rootino := by
  induction names generalizing e with
  | nil => cases hp
  | cons y names ih =>
      rw [parentOf] at hp
      split at hp
      · cases hp
      rename_i hdir
      split at hp
      · rename_i hnil
        cases hp
        refine hfar.resolve_right ?_
        rw [hnil, List.length_singleton]
        omega
      split at hp
      · cases hp
      · rename_i i hi
        obtain ⟨j, hj, hnamed, _, hnum⟩ := numberOf_eq_some.mp hi
        refine ih (fun z hz => hgood z (List.mem_cons_of_mem _ hz))
          (h.dirs.linked he (not_not.mp hdir) hi).1 (.inl ?_) hp
        -- only `.` and `..` lead to the root, and `y` is neither
        rintro rfl
        have hy := hgood y List.mem_cons_self
        rcases h.apex e he (not_not.mp hdir) j hj hnum with hdot | hdots
        · exact hy.notdot (hnamed.2.symm.trans hdot)
        · exact hy.notdots (hnamed.2.symm.trans hdots)

theorem parentOfPath_pathOf (hgood : ∀ name ∈ names, GoodName name) :
    parentOfPath s cwd (pathOf names) = parentOf s.bufs.disk rootino names := by
  rw [parentOfPath, elems_pathOf hgood]
  rfl

/-- **One call.**  The root gets a link from a directory that is made in it. -/
theorem Progress.makeEntry {x : List (List UInt8) × Int16} (h : Progress sb s l m k)
    (hcwd : cwd ∈ l.map Prod.fst) (hne : x.1 ≠ []) (hgood : ∀ name ∈ x.1, GoodName name) (hm : m < 2 ^ 14)
    (hrun : Xv6.makeEntry dev cwd x s = .ok (0, t)) :
    Progress sb t l (if x.2 = tDir then m + 1 else m) (if IsTop x then k + 1 else k) := by
  unfold Xv6.makeEntry at hrun
  by_cases hdir : x.2 = tDir
  · rw [if_pos hdir] at hrun ⊢
    obtain ⟨d, name, hparent, ht⟩ := h.sysMkdir hcwd (zero_notMem_pathOf hgood) hm hrun
    rw [parentOfPath_pathOf hgood] at hparent
    have htop : d = rootino ↔ IsTop x := by
      refine ⟨fun hd => ⟨hdir, ?_⟩, fun htop => ?_⟩
      · by_contra hlen
        have hpos := List.length_pos_of_ne_nil hne
        exact h.making.parent_ne_root hgood h.making.dirs.root.1 (.inr (by omega)) hparent hd
      · obtain ⟨name', hname⟩ := List.length_eq_one_iff.mp htop.2
        rw [hname, parentOf, if_neg (not_not.mpr h.making.type), if_pos rfl] at hparent
        cases hparent
        rfl
    simp only [htop] at ht
    exact ht
  · have hnot : ¬ IsTop x := fun htop => hdir htop.1
    rw [if_neg hdir] at hrun ⊢
    rw [if_neg hnot]
    exact (h.sysCreat hcwd (zero_notMem_pathOf hgood) hm hrun).1

/-- **All calls.**  The root gets a link from each of its subdirectories. -/
theorem Progress.makeEntries {xs : List (List (List UInt8) × Int16)} (h : Progress sb s l m k)
    (hcwd : cwd ∈ l.map Prod.fst) (hxs : ∀ x ∈ xs, x.1 ≠ [] ∧ ∀ name ∈ x.1, GoodName name)
    (hm : m + xs.length ≤ 2 ^ 14) (hrun : Returns (Xv6.makeEntry dev cwd) s xs t) :
    Progress sb t l (m + xs.countP (fun x => x.2 = tDir)) (k + xs.countP (fun x => IsTop x)) := by
  induction hrun generalizing m k with
  | nil => exact h
  | @cons s u t x xs hcall _ ih =>
      rw [List.length_cons] at hm
      obtain ⟨hne, hgood⟩ := hxs x List.mem_cons_self
      have hu := h.makeEntry hcwd hne hgood (by omega) hcall
      have ht := ih hu (fun y hy => hxs y (List.mem_cons_of_mem _ hy)) (by split <;> omega)
      have hdirs : (if x.2 = tDir then m + 1 else m) + xs.countP (fun x => x.2 = tDir) =
          m + (x :: xs).countP (fun x => x.2 = tDir) := by
        rw [List.countP_cons]
        simp only [decide_eq_true_eq]
        split <;> omega
      have htops : (if IsTop x then k + 1 else k) + xs.countP (fun x => IsTop x) =
          k + (x :: xs).countP (fun x => IsTop x) := by
        rw [List.countP_cons]
        simp only [decide_eq_true_eq]
        split <;> omega
      rwa [hdirs, htops] at ht

/-- Files that have been made in the root are there. -/
theorem Progress.makeFiles {xs : List (List (List UInt8) × Int16)} (h : Progress sb s l 0 0)
    (hcwd : cwd ∈ l.map Prod.fst) (hxs : ∀ x ∈ xs, ∃ name, x = ([name], tFile) ∧ GoodName name)
    (hrun : Returns (Xv6.makeEntry dev cwd) s xs t) :
    (∀ name, numberOf s.bufs.disk (dnode s.bufs.disk rootino) name ≠ none →
      numberOf t.bufs.disk (dnode t.bufs.disk rootino) name ≠ none) ∧
    ∀ name, ([name], tFile) ∈ xs → numberOf t.bufs.disk (dnode t.bufs.disk rootino) name ≠ none := by
  induction hrun with
  | nil => exact ⟨fun _ hn => hn, fun _ hmem => absurd hmem List.not_mem_nil⟩
  | @cons s u t _ xs hcall _ ih =>
      obtain ⟨name, rfl, hgood⟩ := hxs _ List.mem_cons_self
      have hgood' : ∀ y ∈ [name], GoodName y := fun y hy => by rwa [List.mem_singleton.mp hy]
      have hparent : parentOfPath s cwd (pathOf [name]) = some (rootino, name) := by
        rw [parentOfPath_pathOf hgood', parentOf, if_neg (not_not.mpr h.making.type), if_pos rfl]
      have hu := h.makeEntry hcwd (List.cons_ne_nil _ _) hgood' (by decide) hcall
      have hnotdir : ¬ tFile = tDir := by decide
      have hnottop : ¬ IsTop ([name], tFile) := fun htop => hnotdir htop.1
      rw [if_neg hnotdir, if_neg hnottop] at hu
      unfold Xv6.makeEntry at hcall
      rw [if_neg hnotdir] at hcall
      have hstep := fun x => h.sysCreat_top (x := x) hcwd (zero_notMem_pathOf hgood') (by decide) hparent hcall
      obtain ⟨hkept, hmade⟩ := ih hu fun y hy => hxs y (List.mem_cons_of_mem _ hy)
      refine ⟨fun y hy => hkept y ((hstep y).2 hy), fun y hy => ?_⟩
      rcases List.mem_cons.mp hy with heq | hy
      · cases heq
        exact hkept _ (hstep []).1
      · exact hmade y hy

end Made

/-! ## The image -/

section Image

variable {F : Plan} {cur n j : Nat} {es root : Entries} {st : Image} {disk : Nat → Sector} {x : PlanNode}
variable {node : Dinode} {ys : List (Nat × List UInt8)} {names : List (List UInt8)}

theorem laid_flat (h : Laid F cur n es) (hflat : es.Flat) (hlo : n ≤ j) (hhi : j < n + es.count) :
    (F.node j).type = tFile := by
  induction es generalizing n with
  | nil =>
      simp only [Entries.count] at hhi
      omega
  | file name chunks rest ih =>
      simp only [Entries.count] at hhi
      by_cases hj : j = n
      · rw [hj, h.1]
      · exact ih h.2 hflat (by omega) (by omega)
  | dir name sub rest _ _ => exact hflat.elim

/-- The numbers of the entries increase. -/
theorem numbered_increases (es : Entries) (n : Nat) : (es.numbered n).Pairwise fun y z => y.1 < z.1 := by
  have hlow : ∀ (es : Entries) (n : Nat), ∀ y ∈ es.numbered n, n ≤ y.1 := by
    intro es
    induction es with
    | nil => exact fun _ _ hy => absurd hy List.not_mem_nil
    | file name chunks rest ih =>
        intro n y hy
        rcases List.mem_cons.mp hy with rfl | hy
        · exact le_rfl
        · have := ih (n + 1) y hy
          omega
    | dir name sub rest _ ihr =>
        intro n y hy
        rcases List.mem_cons.mp hy with rfl | hy
        · exact le_rfl
        · have := ihr (n + 1 + sub.count) y hy
          omega
  induction es generalizing n with
  | nil => exact List.Pairwise.nil
  | file name chunks rest ih => exact List.Pairwise.cons (fun y hy => hlow rest _ y hy) (ih _)
  | dir name sub rest _ ihr =>
      refine List.Pairwise.cons (fun y hy => ?_) (ihr _)
      have := hlow rest _ y hy
      simp only
      omega

/-- Two entries of the root with the same number are `.` and `..`. -/
theorem dirEntries_once {k j : Nat} (hk : k < (dirEntries 1 1 es n).length)
    (hj : j < (dirEntries 1 1 es n).length) (hne : k ≠ j)
    (h : (dirEntries 1 1 es n)[k].1 = (dirEntries 1 1 es n)[j].1) : (dirEntries 1 1 es n)[k].1 = 1 := by
  match k, j with
  | 0, _ => rfl
  | 1, _ => rfl
  | _ + 2, 0 => exact h
  | _ + 2, 1 => exact h
  | k + 2, j + 2 =>
      have hpairs := List.pairwise_iff_getElem.mp (numbered_increases es n)
      simp only [dirEntries, List.length_cons] at hk hj
      have hsame : (es.numbered n)[k].1 = (es.numbered n)[j].1 := h
      rcases Nat.lt_or_gt_of_ne (by omega : k ≠ j) with hlt | hgt
      · have := hpairs k j (by omega) (by omega) hlt
        omega
      · have := hpairs j k (by omega) (by omega) hgt
        omega

/-- The entries of a directory of the image are those of its bytes. -/
theorem Describes.entryAt (h : Describes disk node x) (hx : x.bytes = direntBytes ys)
    (hgood : ∀ y ∈ ys, y.2.length ≤ 14 ∧ 0 ∉ y.2) {k : Nat} (hk : k < maxentries) :
    (∀ hlt : k < ys.length, Xv6.entryAt disk node k = ⟨UInt16.ofNat ys[k].1, ys[k].2⟩) ∧
      (ys.length ≤ k → (Xv6.entryAt disk node k).inum = 0) := by
  have hbyte : ∀ o, o < 16 → byteAt disk node (16 * k + o) = (direntBytes ys).getD (16 * k + o) 0 := by
    intro o ho
    rw [← hx]
    exact h.byte _ (entry_place hk ho)
  refine ⟨fun hlt => ?_, fun hge => ?_⟩
  · obtain ⟨hshort, hzero⟩ := hgood _ (List.getElem_mem hlt)
    refine decode_hostDirent hshort hzero fun o ho => ?_
    rw [hbyte o ho, getD_direntBytes hlt ho]
  · have hzero : ∀ o, o < 16 → byteAt disk node (16 * k + o) = 0 := by
      intro o ho
      rw [hbyte o ho, List.getD_eq_default _ _ (by rw [length_direntBytes]; omega)]
    rw [Xv6.entryAt, Dirent.decode]
    simp only [hzero 0 (by decide), hzero 1 (by decide)]
    rfl

/-- An entry in use is one of those written. -/
theorem Describes.used (h : Describes disk node x) (hx : x.bytes = direntBytes ys)
    (hgood : ∀ y ∈ ys, y.2.length ≤ 14 ∧ 0 ∉ y.2) (hsmall : ∀ y ∈ ys, y.1 < 2 ^ 16) {k : Nat}
    (hk : k < maxentries) (hne : (Xv6.entryAt disk node k).inum ≠ 0) :
    ∃ hlt : k < ys.length, (Xv6.entryAt disk node k).inum.toNat = ys[k].1 ∧
      (Xv6.entryAt disk node k).name = ys[k].2 := by
  obtain ⟨hat, hend⟩ := h.entryAt hx hgood hk
  have hlt : k < ys.length := by
    by_contra hge
    exact hne (hend (by omega))
  refine ⟨hlt, ?_, by rw [hat hlt]⟩
  have hnum := hsmall _ (List.getElem_mem hlt)
  rw [hat hlt]
  show (UInt16.ofNat ys[k].1).toNat = ys[k].1
  rw [UInt16.toNat_ofNat']
  omega

theorem mem_dirEntries {y : Nat × List UInt8} (hnamed : root.Named) (hy : y ∈ dirEntries 1 1 root 2) :
    (y.2.length ≤ 14 ∧ 0 ∉ y.2) ∧ 1 ≤ y.1 ∧ y.1 < 2 + root.count ∧ (y.1 = 1 → IsDots y.2) := by
  rcases List.mem_cons.mp hy with rfl | hy
  · exact ⟨by decide, le_rfl, by simp only; omega, fun _ => .inl rfl⟩
  rcases List.mem_cons.mp hy with rfl | hy
  · exact ⟨by decide, le_rfl, by simp only; omega, fun _ => .inr rfl⟩
  · obtain ⟨hlo, hhi, hgood⟩ := mem_numbered hy hnamed
    exact ⟨⟨hgood.short, hgood.nonzero⟩, by omega, hhi, fun h1 => by omega⟩

/-- A directory of the image has its entries in front. -/
theorem Describes.front (h : Describes disk node x) (hroom : x.size ≤ maxfile * bsize)
    (hsize : x.bytes.length ≤ x.size) : Front disk node := by
  have hshort := h.short
  have hz : (UInt32.ofNat x.bytes.length).toNat = x.bytes.length := by
    simp only [maxfile, bsize] at hshort
    rw [UInt32.toNat_ofNat']
    omega
  refine ⟨by rw [h.size_toNat]; exact hroom, UInt32.ofNat x.bytes.length, ?_, ?_, ?_, ?_⟩
  · rw [hz, h.size_toNat]
    exact hsize
  · intro bn hbn
    have hbn : bn < ((UInt32.ofNat x.bytes.length).toNat + (bsize - 1)) / bsize := hbn
    rw [hz] at hbn
    refine (h.filled.block bn ?_).mpr ?_
    · simp only [maxfile, bsize] at hshort hbn ⊢
      omega
    · simp only [bsize] at hbn ⊢
      omega
  · show (UInt32.ofNat x.bytes.length).toNat ≤ _
    rw [hz]
    exact hshort
  · intro o ho hbn
    have ho : (UInt32.ofNat x.bytes.length).toNat ≤ o := ho
    rw [hz] at ho
    exact (h.byte o hbn).trans (List.getD_eq_default _ _ ho)

/-- The image of a flat tree: the root is the only directory and has one link. -/
theorem image_lone (hflat : root.Flat) (hnamed : root.Named) (hcount : 1 + root.count ≤ 199)
    (hbuilt : Built st (planMain root)) (hsect : st.sect = st.disk)
    (hnames : ∀ name ∈ names, ∃ i child, root.find name 2 = some (i, child)) :
    Lone imageSb st.sect names := by
  have hn : (planMain root).n = 2 + root.count := planMain_n root
  have hnodes : imageSb.ninodes.toNat = 200 := rfl
  have hdesc : ∀ i, 1 ≤ i → i < 2 + root.count →
      Describes st.sect (dnode st.sect i) ((planMain root).node i) := by
    intro i hi hlt
    rw [hsect]
    exact hbuilt.node i hi (by omega) (by omega)
  have hroot := hdesc rootino le_rfl (by simp only [rootino]; omega)
  have hplan : (planMain root).node rootino = ⟨tDir, direntBytes (dirEntries 1 1 root 2), true⟩ := by
    rw [← direntBytes_dirEntries]
    exact planMain_root root
  have hbytes : ((planMain root).node rootino).bytes = direntBytes (dirEntries 1 1 root 2) := by rw [hplan]
  have hlength : (dirEntries 1 1 root 2).length = 2 + root.length := by
    simp only [dirEntries, List.length_cons, Entries.length_numbered]
    omega
  have hmem := fun y (hy : y ∈ dirEntries 1 1 root 2) => mem_dirEntries hnamed hy
  have hentry := fun k (hk : k < maxentries) => hroot.entryAt hbytes (fun y hy => (hmem y hy).1) hk
  have hused := fun k (hk : k < maxentries) => hroot.used hbytes (fun y hy => (hmem y hy).1)
    (fun y hy => by have := (hmem y hy).2.2.1; omega) hk
  have hlinked : ∀ i, 1 ≤ i → i < 2 + root.count → Linked imageSb st.sect i := by
    intro i hi hlt
    have hd := hdesc i hi hlt
    exact ⟨by rw [hnodes]; omega, hd.allocated, by rw [hd.nlink]; decide⟩
  have hlen := length_le_count root
  refine ⟨by decide, ?_, hroot.nlink, ?_, ?_, ?_, ?_, ?_, ?_⟩
  · rw [hroot.type, hplan]
  · intro i hi hne
    rw [hnodes] at hi
    by_cases hin : 1 ≤ i ∧ i < 2 + root.count
    · right
      have hne : i ≠ 1 := hne
      rw [(hdesc i hin.1 hin.2).type]
      exact laid_flat (planMain_laid root) hflat (by omega) (by omega)
    · left
      rw [hsect]
      exact hbuilt.unused i hi (by omega)
  · refine hroot.front ?_ ?_
    · exact planMain_short hcount le_rfl (by rw [hn]; simp only [rootino]; omega) (by rw [hplan])
    · rw [PlanNode.size, hplan, if_pos rfl]
      simp only [bsize]
      omega
  · intro k hk hne
    obtain ⟨hlt, hnum, _⟩ := hused k hk hne
    obtain ⟨_, hlo, hhi, _⟩ := hmem _ (List.getElem_mem hlt)
    rw [hnum]
    exact hlinked _ hlo hhi
  · intro k hk hr
    have hne : (entryAt st.sect (dnode st.sect rootino) k).inum ≠ 0 := by
      intro h0
      rw [h0] at hr
      exact absurd hr (by decide)
    obtain ⟨hlt, hnum, hname⟩ := hused k hk hne
    rw [hname]
    exact (hmem _ (List.getElem_mem hlt)).2.2.2 (hnum.symm.trans hr)
  · intro k j hk hj hkj hne heq
    obtain ⟨hlt, hnum, _⟩ := hused k hk hne
    obtain ⟨hlt', hnum', _⟩ := hused j hj (by rwa [← heq])
    have hsame : (dirEntries 1 1 root 2)[k].1 = (dirEntries 1 1 root 2)[j].1 := by
      rw [← hnum, ← hnum', heq]
    rw [hnum]
    exact dirEntries_once hlt hlt' hkj hsame
  · intro name hname
    obtain ⟨i, child, hfind⟩ := hnames name hname
    obtain ⟨e, he, hat, _⟩ := find_numbered hfind
    have he' : e + 2 < (dirEntries 1 1 root 2).length := by simpa [dirEntries] using he
    have hat' : (dirEntries 1 1 root 2)[e + 2] = (i, name) := hat
    have hk : e + 2 < maxentries := by
      simp only [maxentries, maxfile]
      omega
    obtain ⟨_, hlo, hhi, _⟩ := hmem _ (List.getElem_mem he')
    refine ⟨e + 2, hk, ?_⟩
    rw [Named, (hentry _ hk).1 he', hat']
    rw [hat'] at hlo hhi
    refine ⟨?_, rfl⟩
    intro h0
    have hzero := congrArg UInt16.toNat h0
    rw [UInt16.toNat_ofNat', UInt16.toNat_zero] at hzero
    omega

end Image

/-! ## Unlinking -/

section Unlinking

variable {sb : Superblock} {s t : Kernel} {dev : Devsw} {cwd : Slot} {names : List (List UInt8)}

/-- **All calls.**  Files of the root are unlinked one after the other: the root keeps its link. -/
theorem Lone.unlinks (h : Accounted sb s) (hf : Lone sb s.bufs.disk names) (hl : Holds s [])
    (hnodup : names.Nodup) (hgood : ∀ name ∈ names, GoodName name)
    (hrun : Returns (fun names => sysUnlink dev cwd (pathOf names)) s (names.map fun name => [name]) t) :
    Lone sb t.bufs.disk [] := by
  induction names generalizing s with
  | nil =>
      cases hrun
      exact hf
  | cons name names ih =>
      cases hrun with
      | cons hcall hrest =>
          obtain ⟨hnew, hnodup⟩ := List.nodup_cons.mp hnodup
          have hname := hgood name List.mem_cons_self
          have hplain : ¬ IsDots name := fun hdots => hdots.elim hname.notdot hname.notdots
          have helems : elems (pathOf [name]).length (pathOf [name]) = [name] :=
            elems_pathOf fun y hy => by rwa [List.mem_singleton.mp hy]
          obtain ⟨hu, hfu, hlu⟩ := sysUnlink_run h hf hnew hl rfl helems hname.nonzero hplain hcall
          exact ih hu hfu hlu hnodup (fun y hy => hgood y (List.mem_cons_of_mem _ hy)) hrest

end Unlinking

/-! ## The link counts -/

section Convention

variable {root : Entries} {st : Image} {sb : Superblock} {s t : Kernel} {dev : Devsw} {cwd : Slot}
variable {xs : List (List (List UInt8) × Int16)}

theorem eq_one_of_toInt {x : Int16} (h : x.toInt = 1) : x = 1 := Int16.toInt_inj.mp h

/-- `mkfs` gives every inode one link. -/
theorem mkfs_nlink (hmkfs : mkfsMain root Image.blank = .ok ((), st)) (hcount : 1 + root.count ≤ 199) {i : Nat}
    (hi : 1 ≤ i) (hlt : i < 2 + root.count) : (dnode st.sect i).nlink = 1 := by
  obtain ⟨hbuilt, hsect⟩ := (mkfsMain_ends hcount).of_eq_ok hmkfs
  rw [hsect]
  exact (hbuilt.node i hi (by rw [planMain_n]; exact hlt) (by omega)).nlink

/-- The calls that make a tree leave the root with a link for each subdirectory, and one. -/
theorem made_progress (hcount : 1 + root.count ≤ 199) (hnamed : root.Named) (h : Pristine sb s)
    (hcwd : 0 < (s.icache cwd).ref) (hperm : xs.Perm (root.paths []))
    (hrun : Returns (makeEntry dev cwd) s xs t) : ∃ m, m ≤ root.count ∧ (root.Flat → m = 0) ∧
      Progress sb t (held s cwd) m root.subdirs := by
  have hgood : ∀ x ∈ root.paths [], x.1 ≠ [] ∧ (∀ name ∈ x.1, GoodName name) ∧
      (root.Flat → ([] : List (List UInt8)) = [] → ∃ name, x = ([name], tFile)) :=
    fun x hx => mem_paths hnamed (fun _ hy => absurd hy List.not_mem_nil) hx
  have hlen : xs.length = root.count := hperm.length_eq.trans (length_paths root [])
  have hprog := (h.progress hcwd).makeEntries (by simp [held])
    (fun x hx => ⟨(hgood x (hperm.mem_iff.mp hx)).1, (hgood x (hperm.mem_iff.mp hx)).2.1⟩) (by omega) hrun
  rw [Nat.zero_add, Nat.zero_add, hperm.countP_eq (fun x => IsTop x), countP_paths, if_pos rfl] at hprog
  refine ⟨_, ?_, fun hflat => ?_, hprog⟩
  · rw [← hlen]
    exact List.countP_le_length
  · rw [List.countP_eq_zero]
    intro x hx
    obtain ⟨name, rfl⟩ := (hgood x (hperm.mem_iff.mp hx)).2.2 hflat rfl
    exact fun hc => absurd (of_decide_eq_true hc) (by decide : tFile ≠ tDir)

/-- In a flat tree every path of the tree is found on the disk of the kernel, at an inode with one link. -/
theorem made_flat (hflat : root.Flat) (hcount : 1 + root.count ≤ 199) (hnamed : root.Named)
    (h : Pristine sb s) (hcwd : 0 < (s.icache cwd).ref) (hperm : xs.Perm (root.paths []))
    (hrun : Returns (makeEntry dev cwd) s xs t) {names : List (List UInt8)} {i : Nat} {child : Child}
    (hwalk : walk 1 root 2 names = some (i, child)) :
    ∃ j, resolve t.bufs.disk rootino names = some j ∧ (dnode t.bufs.disk j).nlink = 1 := by
  obtain ⟨m, _, hm, hprog⟩ := made_progress hcount hnamed h hcwd hperm hrun
  rw [hm hflat, subdirs_of_flat hflat] at hprog
  have hone : ∀ j, j < sb.ninodes.toNat → (dnode t.bufs.disk j).type ≠ 0 →
      (dnode t.bufs.disk j).nlink = 1 := by
    intro j hj ht
    obtain ⟨hlo, hhi⟩ := hprog.making.links j hj ht
    exact eq_one_of_toInt (by omega)
  have htype := hprog.making.type
  rcases walk_flat hflat hwalk with ⟨rfl, _, _⟩ | ⟨name, bytes, rfl, _, hfind⟩
  · exact ⟨rootino, rfl, hone _ hprog.making.dirs.root.1 (by rw [htype]; decide)⟩
  · obtain ⟨_, hmade⟩ := (h.progress hcwd).makeFiles (by simp [held]) (fun x hx => by
      obtain ⟨_, hgood, hx⟩ := mem_paths hnamed (fun _ hy => absurd hy List.not_mem_nil)
        (hperm.mem_iff.mp hx)
      obtain ⟨y, rfl⟩ := hx hflat rfl
      exact ⟨y, rfl, hgood y List.mem_cons_self⟩) hrun
    obtain ⟨j, hj⟩ := Option.ne_none_iff_exists'.mp
      (hmade name (hperm.mem_iff.mpr (find_paths hflat hfind).1))
    obtain ⟨hnum, ht, _⟩ := hprog.making.dirs.linked hprog.making.dirs.root.1 htype hj
    refine ⟨j, ?_, hone j hnum ht⟩
    rw [resolve, List.foldlM_cons, lookupIn, if_pos htype, hj]
    rfl

/-- The link counts of an image are right just when the tree has no subdirectory. -/
theorem mkfs_links_match_iff (hmkfs : mkfsMain root Image.blank = .ok ((), st))
    (hcount : 1 + root.count ≤ 199) (hnamed : root.Named) (hempty : Pristine sb s)
    (hcwd : 0 < (s.icache cwd).ref) (hperm : xs.Perm (root.paths []))
    (hmade : Returns (makeEntry dev cwd) s xs t) :
    LinksMatch dev root st.sect t.bufs.disk ↔ root.Flat := by
  constructor
  · intro hm
    -- the count of the root itself tells
    obtain ⟨j, hj, hlinks⟩ := hm.made [] 1 (.dir root) rfl
    cases hj
    obtain ⟨m, _, _, hprog⟩ := made_progress hcount hnamed hempty hcwd hperm hmade
    have hroot := hprog.making.root
    rw [← hlinks, mkfs_nlink hmkfs hcount le_rfl (by omega)] at hroot
    have hone : (1 : Int16).toInt = 1 := rfl
    exact flat_of_subdirs (by omega)
  · intro hflat
    refine ⟨?_, ?_⟩
    · intro names i child hwalk
      obtain ⟨j, hj, hlinks⟩ := made_flat hflat hcount hnamed hempty hcwd hperm hmade hwalk
      refine ⟨j, hj, ?_⟩
      rw [hlinks]
      rcases walk_flat hflat hwalk with ⟨_, rfl, _⟩ | ⟨name, _, _, _, hfind⟩
      · exact mkfs_nlink hmkfs hcount le_rfl (by omega)
      · obtain ⟨hlo, hhi, _⟩ := find_at (planMain_laid root) hnamed hfind
        exact mkfs_nlink hmkfs hcount (by omega) hhi
    · intro u v cwd' order hrest hrefs hnodup hpaths hrun names i sub hwalk _
      rcases walk_flat hflat hwalk with ⟨_, rfl, _⟩ | ⟨_, _, _, hc, _⟩
      · obtain ⟨hbuilt, hsect⟩ := (mkfsMain_ends hcount).of_eq_ok hmkfs
        obtain ⟨files, rfl, hfiles⟩ : ∃ files : List (List UInt8), order = files.map (fun name => [name]) ∧
            ∀ name ∈ files, ∃ i child, root.find name 2 = some (i, child) := flat_order hflat hpaths
        have hlone := image_lone hflat hnamed hcount hbuilt hsect hfiles
        rw [← hrest.disk] at hlone
        have hend := Lone.unlinks hrest.accounted hlone ⟨hrefs, fun _ hx => absurd hx List.not_mem_nil⟩
          (hnodup.of_map _) (fun name hname => by
            obtain ⟨_, _, hfind⟩ := hfiles name hname
            exact (find_named hnamed hfind).1) hrun
        have hnlink : (dnode v.bufs.disk 1).nlink = 1 := hend.nlink
        rw [hnlink]
        exact ⟨by decide, fun _ => rfl⟩
      · cases hc

theorem atRoot_pristine : Pristine ⟨8192, 8⟩ atRoot.kernel := by
  have h := atRoot_ready
  have hnode : dnode atRoot.kernel.bufs.disk rootino = rootNode.toDinode := rootDisk_node
  have htype : (dnode atRoot.kernel.bufs.disk rootino).type = tDir := congrArg Dinode.type hnode
  refine ⟨h.accounted, h.refs, h.dirs.few, h.dirs.root.1, htype, congrArg Dinode.nlink hnode,
    h.dirs.table rootino h.dirs.root.1 htype, ?_, ?_⟩
  · have hall : ∀ i : Fin 8, (i : Nat) ≠ rootino → (dnode rootDisk i).type = 0 := by decide +kernel
    exact fun i hi hne => hall ⟨i, hi⟩ hne
  · intro k _ hused
    exact absurd (inum_rootDisk k) hused

theorem returns_one {x : List (List UInt8) × Int16}
    (h : (makeEntry noDevices 0 x atRoot.kernel).toOption.map Prod.fst = some 0) :
    ∃ t, Returns (makeEntry noDevices 0) atRoot.kernel [x] t := by
  cases hrun : makeEntry noDevices 0 x atRoot.kernel with
  | error e =>
      rw [hrun] at h
      cases h
  | ok r =>
      rw [hrun] at h
      have hr : r.1 = 0 := Option.some.inj h
      exact ⟨r.2, .cons (hrun.trans (congrArg Except.ok (Prod.ext hr rfl))) .nil⟩

theorem mkfs_links_match_iff_one_file : ∃ (st : Image) (t : Kernel),
    mkfsMain (emptyFiles 1) Image.blank = .ok ((), st) ∧
      Returns (makeEntry noDevices 0) atRoot.kernel [([[97, 97]], tFile)] t ∧
      LinksMatch noDevices (emptyFiles 1) st.sect t.bufs.disk := by
  obtain ⟨st, hrun⟩ := mkfsMain_emptyFiles (k := 1) (by decide)
  obtain ⟨t, ht⟩ := returns_one (x := ([[97, 97]], tFile)) (by decide +kernel)
  refine ⟨st, t, hrun, ht, (mkfs_links_match_iff hrun (by decide) ?_ atRoot_pristine (by decide)
    (List.Perm.refl _) ht).mpr trivial⟩
  exact ⟨⟨by decide, by decide, by decide, by decide, by decide, by decide⟩, trivial⟩

/-- A tree with one directory, which is empty. -/
def oneDirectory : Entries := .dir [100] .nil .nil

theorem oneDirectory_fits : (planMain oneDirectory).Fits := by
  have hn : (planMain oneDirectory).n = 3 := planMain_n oneDirectory
  have h1 : ((planMain oneDirectory).node 1).bytes.length = 48 := by
    rw [planMain_root, length_direntBytes_dots]
    rfl
  have h2 : ((planMain oneDirectory).node 2).bytes.length = 32 := by
    have hlaid : (planMain oneDirectory).node 2 = _ := (planMain_laid oneDirectory).1
    rw [hlaid, length_direntBytes_dots]
    rfl
  refine ⟨?_, ?_⟩
  · intro i hi hlt
    rw [hn] at hlt
    obtain rfl | rfl : i = 1 ∨ i = 2 := by omega
    · rw [h1]
      decide
    · rw [h2]
      decide
  · have hsum : (planMain oneDirectory).blocks = blocksFor 48 + blocksFor 32 := by
      rw [Plan.blocks, hn, Finset.sum_Ico_succ_top (by decide), Finset.sum_Ico_succ_top (by decide), h1, h2]
      simp
    rw [hsum]
    simp [blocksFor, bsize, ndirect]

/-- A root directory with a subdirectory has one link in the image, and two in the kernel. -/
theorem not_mkfs_links_match : ¬ ∀ (root : Entries) (st : Image) (sb : Superblock) (s t : Kernel)
    (dev : Devsw) (cwd : Slot), mkfsMain root Image.blank = .ok ((), st) → 1 + root.count ≤ 199 →
    root.Named → Pristine sb s → 0 < (s.icache cwd).ref →
    Returns (makeEntry dev cwd) s (root.paths []) t → LinksMatch dev root st.sect t.bufs.disk := by
  intro hclaim
  have hcount : 1 + oneDirectory.count ≤ 199 := by decide
  have hnamed : oneDirectory.Named :=
    ⟨⟨by decide, by decide, by decide, by decide, by decide, by decide⟩, trivial, trivial⟩
  obtain ⟨_, st, hrun, _⟩ := (mkfsMain_ends hcount).returns (not_not.mpr oneDirectory_fits)
  obtain ⟨t, ht⟩ := returns_one (x := ([[100]], tDir)) (by decide +kernel)
  have hm := hclaim oneDirectory st _ _ t _ _ hrun hcount hnamed atRoot_pristine (by decide) ht
  obtain ⟨j, hj, hlinks⟩ := hm.made [] 1 (.dir oneDirectory) rfl
  cases hj
  obtain ⟨m, _, _, hprog⟩ := made_progress hcount hnamed atRoot_pristine (by decide) (List.Perm.refl _) ht
  have hroot := hprog.making.root
  rw [← hlinks, mkfs_nlink hrun hcount le_rfl (by decide)] at hroot
  exact absurd hroot (by decide)

end Convention

end Xv6
end LfsXv6
