import LfsXv6.Linux.Removal

/-!
# Kinds — files searched like directories, directories read with the wrong parent

`lookup_server` does not look at the type of the inode: it searches the data blocks of a regular file
as if they held directory entries.  `read_server` on a directory takes the second direct pointer for
the number of the parent, and searches whatever inode that number stands for.
-/

namespace LfsXv6
namespace Linux

open Lib

/-! ## Lookups -/

/-- Slot `e` of the used block `k` of inode `f`, read as a directory block, carries the name `n`. -/
def Server.Named (s : Server) (f : Int32) (k : Fin 14) (e : Fin 128) (n : List UInt8) : Prop :=
  (s.inode f).dpUsed k = 1 ∧ cstr ((dirAt s.file ((s.inode f).dpointers k)).names e) = n

/-- It is the first slot of that name. -/
def Server.FirstNamed (s : Server) (f : Int32) (k : Fin 14) (e : Fin 128) (n : List UInt8) : Prop :=
  s.Named f k e n ∧ ∀ k' e', s.Named f k' e' n → k < k' ∨ (k = k' ∧ e ≤ e')

section Lookup

variable {s : Server} {f : Int32} {name : Name}

theorem Directory.findName_first {d : Directory} {e : Fin 128} (h : d.findName name = some e) :
    cstr (d.names e) = name.bytes ∧ ∀ e' < e, cstr (d.names e') ≠ name.bytes := by
  rw [Directory.findName, ← Fin.find?_eq_find?_finRange, Fin.find?_eq_some_iff] at h
  exact ⟨of_decide_eq_true h.1, fun e' he' => of_decide_eq_false (h.2 e' he')⟩

theorem Server.FirstNamed.unique {k k' : Fin 14} {e e' : Fin 128} {n : List UInt8}
    (h : s.FirstNamed f k e n) (h' : s.FirstNamed f k' e' n) : k = k' ∧ e = e' := by
  rcases h.2 k' e' h'.1 with hlt | ⟨rfl, hle⟩
  · rcases h'.2 k e h.1 with hlt' | ⟨rfl, _⟩
    · exact absurd hlt' (Nat.lt_asymm hlt)
    · exact absurd hlt (Nat.lt_irrefl _)
  · rcases h'.2 k e h.1 with hlt' | ⟨_, hle'⟩
    · exact absurd hlt' (Nat.lt_irrefl _)
    · exact ⟨rfl, Fin.le_antisymm hle hle'⟩

/-- The search in a regular file ends at the first slot of the name, or finds none. -/
theorem lookupBlocks_cases (s : Server) (f : Int32) (name : Name) :
    (lookupBlocks (fileBlocks s.file (s.inode f)) name = -1 ∧ ∀ k e, ¬ s.Named f k e name.bytes) ∨
      ∃ k e, s.FirstNamed f k e name.bytes ∧
        lookupBlocks (fileBlocks s.file (s.inode f)) name =
          (dirAt s.file ((s.inode f).dpointers k)).inums e := by
  have hblock : ∀ k, ((fileBlocks s.file (s.inode f) k).bind fun b =>
      ((Directory.decode b.mem).findName name).map (Directory.decode b.mem).inums) =
      if (s.inode f).dpUsed k = 1 then
        ((dirAt s.file ((s.inode f).dpointers k)).findName name).map
          (dirAt s.file ((s.inode f).dpointers k)).inums
      else none := by
    intro k
    rw [fileBlocks]
    split
    · rw [Option.bind_some, decode_dataAt]
    · rfl
  rw [lookupBlocks]
  simp only [hblock]
  rw [← Fin.findSome?_eq_findSome?_finRange]
  generalize hfind : Fin.findSome? _ = r
  cases r with
  | none =>
      left
      refine ⟨rfl, ?_⟩
      rintro k e ⟨hk, hname⟩
      have hnone := Fin.findSome?_eq_none_iff.mp hfind k
      rw [if_pos hk, Option.map_eq_none_iff] at hnone
      exact Directory.findName_eq_none hnone e (List.mem_finRange e) hname
  | some i =>
      right
      obtain ⟨k, hk, hbefore⟩ := Fin.findSome?_eq_some_iff.mp hfind
      split at hk
      swap
      · exact absurd hk (by simp)
      rename_i hused
      obtain ⟨e, he, hi⟩ := Option.map_eq_some_iff.mp hk
      obtain ⟨hname, hfirst⟩ := Directory.findName_first he
      refine ⟨k, e, ⟨⟨hused, hname⟩, ?_⟩, by rw [Option.getD_some, hi]⟩
      rintro k' e' ⟨hk', hname'⟩
      rcases Nat.lt_trichotomy k.val k'.val with hlt | heq | hgt
      · exact .inl hlt
      · obtain rfl : k = k' := Fin.ext heq
        refine .inr ⟨rfl, Fin.not_lt.mp fun hlt => ?_⟩
        exact hfirst e' hlt hname'
      · have hnone := hbefore k' hgt
        rw [if_pos hk', Option.map_eq_none_iff] at hnone
        exact absurd hname' (Directory.findName_eq_none hnone e' (List.mem_finRange e'))

/-- **Lookup in a file.**  In every state that is reached, a lookup in a regular file fails exactly
when the first slot of that name in its blocks, read as directory blocks, has the inode number -1, if
there is such a slot. -/
theorem lookup_file_iff {stack : Directory} {xs : List Turn}
    (hrun : Run turn (fun s x => Tolerated s x.1) (format stack) xs s) (hf : s.Allocated f)
    (hfile : (s.inode f).type = mfsRegularFile) (st : Stack) :
    (lookupServer s f name st).1 = -1 ↔
      ∀ k e, s.FirstNamed f k e name.bytes →
        (dirAt s.file ((s.inode f).dpointers k)).inums e = -1 := by
  obtain ⟨h, _⟩ := run_regular hrun
  have hne : ¬ (s.inode f).type = mfsDirectory := by
    rw [hfile]
    decide
  have hlook : (lookupServer s f name st).1 =
      lookupBlocks (fileBlocks s.file (s.inode f)) name := by
    rw [h.lookup_dir hf, Fs.lookup, tree_of_allocated hf, nodeOf, if_neg hne]
  rw [hlook]
  rcases lookupBlocks_cases s f name with ⟨hmiss, hnone⟩ | ⟨k, e, hfirst, hval⟩
  · rw [hmiss]
    refine iff_of_true rfl ?_
    intro k e hfirst
    exact absurd hfirst.1 (hnone k e)
  · rw [hval]
    constructor
    · intro hi k' e' hfirst'
      obtain ⟨rfl, rfl⟩ := hfirst.unique hfirst'
      exact hi
    · exact fun hall => hall k e hfirst

/-- An empty file: there is nothing to be found. -/
theorem lookup_file_empty :
    ∃ s, Run turn (fun s x => Tolerated s x.1) (format (default : Stack).direct)
        [(.creat 0 mfsRegularFile ⟨[97], by decide, by decide⟩, default)] s ∧
      (lookupServer s 1 ⟨[98], by decide, by decide⟩ default).1 = -1 := by
  obtain ⟨s, hrun, h, htree, _⟩ := run_of_requests (default : Stack).direct
    [(.creat 0 mfsRegularFile ⟨[97], by decide, by decide⟩, default)] (by decide +kernel) (by decide)
  have hrun' := WF.run_tolerated_of_admitted hrun (format_spec _).1
  have hstat : s.tree.stat 1 = some ⟨mfsRegularFile, 0⟩ := by
    rw [htree]
    decide +kernel
  have hf : s.Allocated 1 := by
    rw [allocated_iff]
    intro hnone
    rw [Fs.stat, hnone] at hstat
    exact absurd hstat (by simp)
  rw [h.stat_eq hf, Option.some.injEq, Stat.mk.injEq] at hstat
  refine ⟨s, hrun', (lookup_file_iff hrun' hf hstat.1 default).mpr ?_⟩
  intro k e hfirst
  have hle := ((h.node 1 hf).file hstat.1).used_le k hfirst.1.1
  rw [hstat.2] at hle
  have hzero : (0 : Int32).toInt = 0 := by decide
  omega

/-- A block that looks like the first block of a directory. -/
def decoy : Block := blockOf (newDirBlock true 1 0 (default : Stack).direct).encode

/-- A file that holds the decoy: the lookup of `"."` in it finds inode 1. -/
theorem not_lookup_file :
    ¬ ∀ (xs : List Turn) (s : Server), Run turn Admitted (format (default : Stack).direct) xs s →
      ∀ f name st, s.Allocated f → (s.inode f).type = mfsRegularFile →
        (lookupServer s f name st).1 = -1 := by
  intro hclaim
  obtain ⟨s, hrun, h, htree, _⟩ := run_of_requests (default : Stack).direct
    [(.creat 0 mfsRegularFile ⟨[97], by decide, by decide⟩, default), (.write 1 decoy 0, default)]
    (by decide +kernel) (by decide)
  have hstat : s.tree.stat 1 = some ⟨mfsRegularFile, 4096⟩ := by
    rw [htree]
    decide +kernel
  have hf : s.Allocated 1 := by
    rw [allocated_iff]
    intro hnone
    rw [Fs.stat, hnone] at hstat
    exact absurd hstat (by simp)
  rw [h.stat_eq hf, Option.some.injEq, Stat.mk.injEq] at hstat
  have hlook := hclaim _ s hrun 1 Name.dot default hf hstat.1
  rw [h.lookup_dir hf, htree] at hlook
  revert hlook
  decide +kernel

end Lookup

/-! ## Reads of directories -/

/-- The 32 bytes of an `MFS_DirEnt_t`, read back. -/
def DirEnt.decode (m : Mem) : DirEnt where
  name := fun k => m k
  inum := getInt m 28

/-- The buffer starts with a directory entry for `d` under the name `n`. -/
def Shows (ent : DirEnt) (d : Int32) (n : List UInt8) : Prop := ent.inum = d ∧ cstr ent.name = n

/-- Slot `e` of the used block `k` of inode `q`, read as a directory block, has the inode number `d`. -/
def Server.Points (s : Server) (q : Int32) (k : Fin 14) (e : Fin 128) (d : Int32) : Prop :=
  (s.inode q).dpUsed k = 1 ∧ (dirAt s.file ((s.inode q).dpointers k)).inums e = d

/-- Every name of inode `q` with the inode number `d` ends in its field. -/
def Server.Terminated (s : Server) (q d : Int32) : Prop :=
  ∀ k e, s.Points q k e d → (cstr ((dirAt s.file ((s.inode q).dpointers k)).names e)).length < 28

/-- The last slot of inode `q` with the inode number `d` carries the name `n`. -/
def Server.LastNames (s : Server) (q d : Int32) (n : List UInt8) : Prop :=
  ∃ k e, s.Points q k e d ∧ cstr ((dirAt s.file ((s.inode q).dpointers k)).names e) = n ∧
    ∀ k' e', s.Points q k' e' d → k' < k ∨ (k' = k ∧ e' ≤ e)

/-- The names under which directory `d` is listed: in its parent, the root among its dot entries. -/
def Server.Lists (s : Server) (d : Int32) (n : List UInt8) : Prop :=
  if d = 0 then
    (n = Name.dot.bytes ∨ n = Name.dotdot.bytes) ∧ ∃ k e, s.HasEntry 0 k e n 0
  else ∃ k e q, s.HasEntry d k e Name.dotdot.bytes q ∧ ∃ k' e', s.HasEntry q k' e' n d

section Fold

variable {α β : Type}

/-- A fold that acts on some elements ends with the action of the last of them. -/
theorem foldl_last (P : β → Prop) [DecidablePred P] (g : α → β → α) (l : List β) (a : α) :
    ((∀ x ∈ l, ¬ P x) ∧ l.foldl (fun c x => if P x then g c x else c) a = a) ∨
      ∃ l₁ x l₂ c, l = l₁ ++ x :: l₂ ∧ P x ∧ (∀ y ∈ l₂, ¬ P y) ∧
        l.foldl (fun c x => if P x then g c x else c) a = g c x := by
  induction l generalizing a with
  | nil => exact .inl ⟨by simp, rfl⟩
  | cons x l ih =>
      rcases ih (if P x then g a x else a) with ⟨hnone, heq⟩ | ⟨l₁, y, l₂, c, rfl, hy, hlast, heq⟩
      · by_cases hx : P x
        · right
          refine ⟨[], x, l, a, rfl, hx, hnone, ?_⟩
          rw [List.foldl_cons, heq, if_pos hx]
        · left
          refine ⟨?_, by rw [List.foldl_cons, heq, if_neg hx]⟩
          intro y hy
          rcases List.mem_cons.mp hy with rfl | hy
          · exact hx
          · exact hnone y hy
      · exact .inr ⟨x :: l₁, y, l₂, c, rfl, hy, hlast, heq⟩

/-- The same over all indices in order. -/
theorem foldl_finRange_last {m : Nat} (P : Fin m → Prop) [DecidablePred P] (g : α → Fin m → α)
    (a : α) :
    ((∀ x, ¬ P x) ∧ (List.finRange m).foldl (fun c x => if P x then g c x else c) a = a) ∨
      ∃ x c, P x ∧ (∀ y, P y → y ≤ x) ∧
        (List.finRange m).foldl (fun c x => if P x then g c x else c) a = g c x := by
  rcases foldl_last P g (List.finRange m) a with ⟨hnone, heq⟩ | ⟨l₁, x, l₂, c, hl, hx, hlast, heq⟩
  · exact .inl ⟨fun x => hnone x (List.mem_finRange x), heq⟩
  · right
    refine ⟨x, c, hx, ?_, heq⟩
    intro y hy
    have hsorted : (l₁ ++ x :: l₂).Pairwise (· < ·) := hl ▸ List.pairwise_lt_finRange m
    have hmem : y ∈ l₁ ++ x :: l₂ := hl ▸ List.mem_finRange y
    rcases List.mem_append.mp hmem with hy₁ | hy₂
    · exact Fin.le_of_lt ((List.pairwise_append.mp hsorted).2.2 y hy₁ x List.mem_cons_self)
    · rcases List.mem_cons.mp hy₂ with rfl | hy₂
      · exact Fin.le_refl _
      · exact absurd hy (hlast y hy₂)

end Fold

section Copy

/-- Copying a name field leaves a field with the same string. -/
theorem cstr_strcpy_cstr (dst a : Fin 28 → UInt8) : cstr (strcpy dst (cstr a)) = cstr a := by
  by_cases hlen : (cstr a).length ≤ 27
  · exact cstr_strcpy dst ⟨cstr a, hlen, nul_not_mem_cstr a⟩
  · -- without a terminator the whole field is copied
    have hprefix : cstr a <+: List.ofFn a := by
      rw [cstr]
      exact List.takeWhile_prefix _
    have hfull : cstr a = List.ofFn a := by
      refine hprefix.eq_of_length_le ?_
      rw [List.length_ofFn]
      omega
    have hsame : strcpy dst (cstr a) = a := by
      funext k
      have hk : k.val < (List.ofFn a).length := by simp
      rw [strcpy, hfull, if_pos hk, List.getD_eq_getElem _ _ hk, List.getElem_ofFn]
    rw [hsame]

section Overrun

variable {α β : Type} (P Q : β → Prop) [DecidablePred P] [DecidablePred Q] (g : β → α → α)

/-- A fold that is lost at the elements with `P` and without `Q`: it is not, where there are none. -/
theorem foldl_map_some {l : List β} (h : ∀ x ∈ l, P x → Q x) (a : α) :
    l.foldl (fun c x => if P x then if Q x then c.map (g x) else none else c) (some a) =
      some (l.foldl (fun c x => if P x then g x c else c) a) := by
  induction l generalizing a with
  | nil => rfl
  | cons x l ih =>
      have hrest : ∀ y ∈ l, P y → Q y := fun y hy => h y (List.mem_cons_of_mem _ hy)
      rw [List.foldl_cons, List.foldl_cons]
      by_cases hx : P x
      · rw [if_pos hx, if_pos (h x List.mem_cons_self hx), if_pos hx]
        exact ih hrest (g x a)
      · rw [if_neg hx, if_neg hx]
        exact ih hrest a

/-- What is lost stays lost. -/
theorem foldl_map_none (l : List β) :
    l.foldl (fun c x => if P x then if Q x then c.map (g x) else none else c) none = none := by
  induction l with
  | nil => rfl
  | cons x l ih =>
      rw [List.foldl_cons]
      split
      · split
        · exact ih
        · exact ih
      · exact ih

theorem foldl_map_lost {l : List β} {x : β} (hx : x ∈ l) (hp : P x) (hq : ¬ Q x) (c : Option α) :
    l.foldl (fun c x => if P x then if Q x then c.map (g x) else none else c) c = none := by
  induction l generalizing c with
  | nil => cases hx
  | cons y l ih =>
      rw [List.foldl_cons]
      rcases List.mem_cons.mp hx with rfl | hx
      · rw [if_pos hp, if_neg hq]
        exact foldl_map_none P Q g l
      · exact ih hx _

end Overrun

/-- The scan of one block, when all names end in their fields. -/
def dirEntIn (i : Int32) (d : Directory) (ent : DirEnt) : DirEnt :=
  (List.finRange 128).foldl
    (fun ent j => if d.inums j = i then { name := strcpy ent.name (cstr (d.names j)), inum := i } else ent) ent

theorem dirEntOf_some {i : Int32} {d : Directory} (h : ∀ e, d.inums e = i → (cstr (d.names e)).length < 28)
    (ent : DirEnt) : dirEntOf i d (some ent) = some (dirEntIn i d ent) := by
  rw [dirEntOf]
  exact foldl_map_some (fun j => d.inums j = i) (fun j => (cstr (d.names j)).length < 28)
    (fun j (ent : DirEnt) => { name := strcpy ent.name (cstr (d.names j)), inum := i }) (fun e _ => h e) ent

theorem dirEntOf_none (i : Int32) (d : Directory) : dirEntOf i d none = none := by
  rw [dirEntOf]
  exact foldl_map_none _ _ _ _

theorem dirEntOf_overrun {i : Int32} {d : Directory} {e : Fin 128} (he : d.inums e = i)
    (hlong : ¬ (cstr (d.names e)).length < 28) (ent : Option DirEnt) : dirEntOf i d ent = none := by
  rw [dirEntOf]
  exact foldl_map_lost (fun j => d.inums j = i) (fun j => (cstr (d.names j)).length < 28)
    (fun j (ent : DirEnt) => { name := strcpy ent.name (cstr (d.names j)), inum := i })
    (List.mem_finRange e) he hlong ent

/-- The scan of one block keeps the last slot of that inode number. -/
theorem dirEntIn_cases (i : Int32) (d : Directory) (ent : DirEnt) :
    ((∀ e, d.inums e ≠ i) ∧ dirEntIn i d ent = ent) ∨
      ∃ e, d.inums e = i ∧ (∀ e', d.inums e' = i → e' ≤ e) ∧
        Shows (dirEntIn i d ent) i (cstr (d.names e)) := by
  rw [dirEntIn]
  rcases foldl_finRange_last (fun j => d.inums j = i)
    (fun (c : DirEnt) j => { name := strcpy c.name (cstr (d.names j)), inum := i }) ent with
    ⟨hnone, heq⟩ | ⟨e, c, he, hlast, heq⟩
  · exact .inl ⟨hnone, heq⟩
  · right
    refine ⟨e, he, hlast, ?_⟩
    rw [heq]
    exact ⟨rfl, cstr_strcpy_cstr _ _⟩

theorem DirEnt.decode_encode {ent : DirEnt} {m : Mem} (h : ∀ o < 32, m o = ent.encode o) :
    DirEnt.decode m = ent := by
  have hname : (DirEnt.decode m).name = ent.name := by
    funext k
    have hk := h k (by omega)
    rw [DirEnt.encode, dif_pos k.isLt] at hk
    exact hk
  have hinum : (DirEnt.decode m).inum = ent.inum := by
    refine getInt_eq ?_
    intro o ho
    rw [h _ (by omega), DirEnt.encode, dif_neg (by omega)]
    simp
  cases ent
  cases hd : DirEnt.decode m
  rw [hd] at hname hinum
  simp only at hname hinum
  rw [hname, hinum]

end Copy

section Read

variable {s : Server} {q d : Int32} {n : List UInt8}

/-- The block scan as a fold over the block numbers. -/
def scanned (s : Server) (q d : Int32) (ent : Option DirEnt) (l : List (Fin 14)) : Option DirEnt :=
  l.foldl (fun c k => if (s.inode q).dpUsed k = 1 then
    dirEntOf d (dirAt s.file ((s.inode q).dpointers k)) c else c) ent

/-- The same, when all names end in their fields. -/
def scannedIn (s : Server) (q d : Int32) (ent : DirEnt) (l : List (Fin 14)) : DirEnt :=
  l.foldl (fun c k => if (s.inode q).dpUsed k = 1 then
    dirEntIn d (dirAt s.file ((s.inode q).dpointers k)) c else c) ent

theorem Server.Terminated.scanned_eq (h : s.Terminated q d) (l : List (Fin 14)) (ent : DirEnt) :
    scanned s q d (some ent) l = some (scannedIn s q d ent l) := by
  induction l generalizing ent with
  | nil => rfl
  | cons k l ih =>
      rw [scanned, scannedIn, List.foldl_cons, List.foldl_cons]
      split
      · rename_i hk
        rw [dirEntOf_some (fun e he => h k e ⟨hk, he⟩)]
        exact ih _
      · exact ih _

/-- A name that does not end in its field is copied over the end of `dirEnt.name`. -/
theorem scanned_overrun (h : ¬ s.Terminated q d) (ent : Option DirEnt) :
    scanned s q d ent (List.finRange 14) = none := by
  obtain ⟨k, e, ⟨hk, he⟩, hlong⟩ : ∃ k e, s.Points q k e d ∧
      ¬ (cstr ((dirAt s.file ((s.inode q).dpointers k)).names e)).length < 28 := by
    by_contra hno
    exact h fun k e hp => by
      by_contra hlong
      exact hno ⟨k, e, hp, hlong⟩
  have hlost : ∀ l : List (Fin 14), scanned s q d none l = none := by
    intro l
    induction l with
    | nil => rfl
    | cons j l ih =>
        rw [scanned, List.foldl_cons, dirEntOf_none, ite_self]
        exact ih
  have hscan : ∀ (l : List (Fin 14)) (c : Option DirEnt), k ∈ l → scanned s q d c l = none := by
    intro l
    induction l with
    | nil => intro c hmem; cases hmem
    | cons j l ih =>
        intro c hmem
        rw [scanned, List.foldl_cons]
        rcases List.mem_cons.mp hmem with rfl | hmem
        · rw [if_pos hk, dirEntOf_overrun he hlong]
          exact hlost l
        · exact ih _ hmem
  exact hscan _ ent (List.mem_finRange k)

theorem WF.readDirLoop_eq (h : WF s) (hq : s.Allocated q) (is : List (Fin 14)) (ent : Option DirEnt)
    (direct : Directory) (o : Nat) :
    (readDirLoop d (s.inode q) is ent direct (s.seek o)).1 = scanned s q d ent is := by
  induction is generalizing ent direct o with
  | nil => rfl
  | cons k is ih =>
      by_cases hk : (s.inode q).dpUsed k = 1
      · simp only [readDirLoop, if_pos hk, scanned, List.foldl_cons]
        rw [seek_file, h.readDirectory_eq hq hk direct o]
        exact ih _ _ _
      · simp only [readDirLoop, if_neg hk, scanned, List.foldl_cons]
        exact ih _ _ _

/-- The scan of inode `q` keeps the last slot with the inode number `d`. -/
theorem scannedIn_cases (s : Server) (q d : Int32) (ent : DirEnt) :
    ((∀ k e, ¬ s.Points q k e d) ∧ scannedIn s q d ent (List.finRange 14) = ent) ∨
      ∃ n, s.LastNames q d n ∧ Shows (scannedIn s q d ent (List.finRange 14)) d n := by
  classical
  have hstep : scannedIn s q d ent (List.finRange 14) = (List.finRange 14).foldl
      (fun c k => if ∃ e, s.Points q k e d then
        dirEntIn d (dirAt s.file ((s.inode q).dpointers k)) c else c) ent := by
    refine congrArg (fun g : DirEnt → Fin 14 → DirEnt => (List.finRange 14).foldl g ent) ?_
    funext c k
    by_cases hk : (s.inode q).dpUsed k = 1
    · rw [if_pos hk]
      split
      · rfl
      · rename_i hno
        rcases dirEntIn_cases d (dirAt s.file ((s.inode q).dpointers k)) c with
          ⟨_, heq⟩ | ⟨e, he, _⟩
        · exact heq
        · exact absurd ⟨e, hk, he⟩ hno
    · rw [if_neg hk, if_neg]
      rintro ⟨e, hc, _⟩
      exact hk hc
  rw [hstep]
  rcases foldl_finRange_last (fun k => ∃ e, s.Points q k e d)
    (fun c k => dirEntIn d (dirAt s.file ((s.inode q).dpointers k)) c) ent with
    ⟨hnone, heq⟩ | ⟨k, c, ⟨e₀, hk, he₀⟩, hlast, heq⟩
  · exact .inl ⟨fun k e hp => hnone k ⟨e, hp⟩, heq⟩
  · right
    rw [heq]
    rcases dirEntIn_cases d (dirAt s.file ((s.inode q).dpointers k)) c with
      ⟨hno, _⟩ | ⟨e, he, hmax, hshow⟩
    · exact absurd he₀ (hno e₀)
    · refine ⟨_, ⟨k, e, ⟨hk, he⟩, rfl, ?_⟩, hshow⟩
      intro k' e' hp
      rcases Nat.lt_or_eq_of_le (hlast k' ⟨e', hp⟩) with hlt | heqk
      · exact .inl hlt
      · obtain rfl : k' = k := Fin.ext heqk
        exact .inr ⟨rfl, hmax e' hp.2⟩

theorem Server.LastNames.unique {n' : List UInt8} (h : s.LastNames q d n)
    (h' : s.LastNames q d n') : n = n' := by
  obtain ⟨k, e, hp, hn, hlast⟩ := h
  obtain ⟨k', e', hp', hn', hlast'⟩ := h'
  rcases hlast k' e' hp' with hlt | ⟨rfl, hle⟩
  · rcases hlast' k e hp with hlt' | ⟨rfl, _⟩
    · exact absurd hlt' (Nat.lt_asymm hlt)
    · exact absurd hlt (Nat.lt_irrefl _)
  · rcases hlast' k' e hp with hlt' | ⟨_, hle'⟩
    · exact absurd hlt' (Nat.lt_irrefl _)
    · rw [← hn, ← hn', Fin.le_antisymm hle hle']

variable {buffer : Block} {block : Int32} {st : Stack}

/-- `read_server` on a directory: the buffer starts with what the scan of the supposed parent left, unless a name
was too long. -/
theorem WF.read_dir_eq (h : WF s) (hd : s.Allocated d) (hdir : (s.inode d).type = mfsDirectory)
    (h0 : 0 ≤ block) (h13 : block ≤ 13) {rc : Int32} {pnode : Inode} {o : Nat} {ent : Option DirEnt}
    (hfind : findInode (s.seek (blk (s.imap d) * 4096 + 124)) ((s.inode d).dpointers 1) st.pnode =
      (rc, pnode, s.seek o))
    (hloop : (readDirLoop d pnode (List.finRange 14) (some st.dirEnt) st.direct (s.seek o)).1 = ent) :
    (readServer s d buffer block st).1 = 0 ∧
      DirEnt.decode (readServer s d buffer block st).2.1.mem = ent.getD (DirEnt.decode st.overrun.mem) := by
  have hne : (s.inode d).type ≠ mfsRegularFile := by
    rw [hdir]
    decide
  obtain ⟨k, hk⟩ : ∃ k, blockIndex block = some k := by
    have hout : ¬ (block < 0 ∨ block > 13) :=
      not_or.mpr ⟨Int32.not_lt.mpr h0, Int32.not_lt.mpr h13⟩
    exact ⟨_, dif_neg hout⟩
  have hent : readDirEnt d (s.inode d) buffer st (s.seek (blk (s.imap d) * 4096 + 124)) =
      (ent.elim st.overrun fun ent => blockOf fun o => if o < 32 then ent.encode o else buffer.mem o,
        (readDirLoop d pnode (List.finRange 14) (some st.dirEnt) st.direct (s.seek o)).2) := by
    rw [readDirEnt, hfind, ← hloop]
    simp only []
    cases (readDirLoop d pnode (List.finRange 14) (some st.dirEnt) st.direct (s.seek o)).1 <;> rfl
  rw [readServer_dir (h.findInode_eq hd st.node) hk hne hent]
  refine ⟨rfl, ?_⟩
  cases ent with
  | none => rfl
  | some ent =>
      refine DirEnt.decode_encode fun o' ho' => ?_
      simp only [Block.mem, blockOf, Option.elim_some, Option.getD_some]
      rw [dif_pos (by omega), if_pos ho']

theorem readDirLoop_none {pnode : Inode} (hunused : ∀ k, pnode.dpUsed k ≠ 1) (is : List (Fin 14))
    (ent : Option DirEnt) (direct : Directory) : (readDirLoop d pnode is ent direct s).1 = ent := by
  induction is with
  | nil => rfl
  | cons k is ih =>
      simp only [readDirLoop, if_neg (hunused k)]
      exact ih

/-- Memory in which nothing says what directory was read. -/
def blankStack (d : Int32) : Stack :=
  { (default : Stack) with
    dirEnt := ⟨fun _ => 0, d + 1⟩
    overrun := blockOf (DirEnt.encode ⟨fun _ => 0, d + 1⟩) }

theorem blankStack_overrun (d : Int32) : DirEnt.decode (blankStack d).overrun.mem = ⟨fun _ => 0, d + 1⟩ :=
  DirEnt.decode_encode fun o ho => dif_pos (by omega)

theorem succ_ne_self (d : Int32) : d + 1 ≠ d := by
  intro hc
  simp at hc

/-- When the pointer is no inode number, the entry is left as the memory had it. -/
theorem WF.read_dir_lost (h : WF s) (hd : s.Allocated d) (hdir : (s.inode d).type = mfsDirectory)
    (h0 : 0 ≤ block) (h13 : block ≤ 13) (hb : ¬ InRange ((s.inode d).dpointers 1)) :
    (DirEnt.decode (readServer s d buffer block (blankStack d)).2.1.mem).inum = d + 1 := by
  rw [(h.read_dir_eq hd hdir h0 h13 (findInode_of_not_inRange hb _ _)
    (readDirLoop_none (fun _ => (by decide : ¬ (0 : Int32) = 1)) _ _ _)).2]
  rfl

/-- **Reading a directory.**  In every state that is reached, a read of directory `d` returns an entry
under which `d` is listed, whatever the memory holds, when the second direct pointer of `d`, a block
number, is an allocated inode number, the names of its slots for `d` end in their fields, and the last of
these names is one under which `d` is listed.  It does not otherwise, unless the pointer is a free inode number. -/
theorem read_dir_iff {stack : Directory} {xs : List Turn}
    (hrun : Run turn (fun s x => Tolerated s x.1) (format stack) xs s) (hd : s.Allocated d)
    (hdir : (s.inode d).type = mfsDirectory) :
    ((s.Allocated ((s.inode d).dpointers 1) ∧ s.Terminated ((s.inode d).dpointers 1) d ∧
        ∃ n, s.Lists d n ∧ s.LastNames ((s.inode d).dpointers 1) d n) →
      ∀ st buffer block, 0 ≤ block → block ≤ 13 → (readServer s d buffer block st).1 = 0 ∧
        ∃ n, s.Lists d n ∧ Shows (DirEnt.decode (readServer s d buffer block st).2.1.mem) d n) ∧
    ((InRange ((s.inode d).dpointers 1) → s.Allocated ((s.inode d).dpointers 1)) →
      (∀ st buffer block, 0 ≤ block → block ≤ 13 → (readServer s d buffer block st).1 = 0 ∧
        ∃ n, s.Lists d n ∧ Shows (DirEnt.decode (readServer s d buffer block st).2.1.mem) d n) →
      s.Allocated ((s.inode d).dpointers 1) ∧ s.Terminated ((s.inode d).dpointers 1) d ∧
        ∃ n, s.Lists d n ∧ s.LastNames ((s.inode d).dpointers 1) d n) := by
  obtain ⟨h, _⟩ := run_regular hrun
  have hscan : ∀ (hq : s.Allocated ((s.inode d).dpointers 1)) st buffer block, 0 ≤ block →
      block ≤ 13 → (readServer s d buffer block st).1 = 0 ∧
        DirEnt.decode (readServer s d buffer block st).2.1.mem =
          (scanned s ((s.inode d).dpointers 1) d (some st.dirEnt) (List.finRange 14)).getD
            (DirEnt.decode st.overrun.mem) := by
    intro hq st buffer block h0 h13
    exact h.read_dir_eq hd hdir h0 h13
      ((h.seek (blk (s.imap d) * 4096 + 124)).findInode_eq (i := (s.inode d).dpointers 1) hq _)
      (h.readDirLoop_eq hq _ _ _ _)
  refine ⟨?_, ?_⟩
  · rintro ⟨hq, hends, n, hlist, hlast⟩ st buffer block h0 h13
    obtain ⟨hret, hent⟩ := hscan hq st buffer block h0 h13
    refine ⟨hret, n, hlist, ?_⟩
    rw [hent, hends.scanned_eq, Option.getD_some]
    rcases scannedIn_cases s ((s.inode d).dpointers 1) d st.dirEnt with ⟨hnone, _⟩ | ⟨m, hm, hshow⟩
    · obtain ⟨k, e, hp, _⟩ := hlast
      exact absurd hp (hnone k e)
    · rw [hlast.unique hm]
      exact hshow
  · intro hb hall
    have hq : s.Allocated ((s.inode d).dpointers 1) := by
      by_contra hfree
      have hout : ¬ InRange ((s.inode d).dpointers 1) := fun hr => hfree (hb hr)
      obtain ⟨_, n, _, hshow⟩ := hall (blankStack d) (fun _ => 0) 0 (by decide) (by decide)
      exact succ_ne_self d ((h.read_dir_lost hd hdir (by decide) (by decide) hout).symm.trans hshow.1)
    obtain ⟨_, n, hlist, hshow⟩ := hall (blankStack d) (fun _ => 0) 0 (by decide) (by decide)
    rw [(hscan hq (blankStack d) _ 0 (by decide) (by decide)).2] at hshow
    have hends : s.Terminated ((s.inode d).dpointers 1) d := by
      by_contra hlong
      rw [scanned_overrun hlong, Option.getD_none, blankStack_overrun] at hshow
      exact succ_ne_self d hshow.1
    rw [hends.scanned_eq, Option.getD_some] at hshow
    refine ⟨hq, hends, ?_⟩
    rcases scannedIn_cases s ((s.inode d).dpointers 1) d (blankStack d).dirEnt with
      ⟨_, heq⟩ | ⟨m, hm, hshow'⟩
    · rw [heq] at hshow
      exact absurd hshow.1 (succ_ne_self d)
    · obtain rfl : m = n := hshow'.2.symm.trans hshow.2
      exact ⟨m, hlist, hm⟩

/-- A directory of one block has no second pointer. -/
theorem WF.second_pointer (h : WF s) (hd : s.Allocated d) (hdir : (s.inode d).type = mfsDirectory)
    (hsize : (s.inode d).size = 4096) : (s.inode d).dpointers 1 = -1 := by
  have hn := h.node d hd
  have hblocks : (s.inode d).nblocks = 1 := by
    rw [Inode.nblocks, hsize]
    decide
  by_contra hne
  have hused := ((hn.dir hdir).used_iff 1).mp ((hn.used_iff 1).mpr hne)
  rw [hblocks] at hused
  exact absurd hused (by decide)

/-- The root of a fresh image is not read as an entry. -/
theorem read_dir_root :
    ¬ ∀ st buffer block, 0 ≤ block → block ≤ 13 →
      (readServer (format (default : Stack).direct) 0 buffer block st).1 = 0 ∧
        ∃ n, (format (default : Stack).direct).Lists 0 n ∧
          Shows (DirEnt.decode (readServer (format (default : Stack).direct) 0 buffer block st).2.1.mem)
            0 n := by
  intro hall
  obtain ⟨hwf, htree, _⟩ := format_spec (default : Stack).direct
  have hroot : (format (default : Stack).direct).tree.IsDir 0 := by
    rw [htree]
    exact ⟨_, rfl⟩
  obtain ⟨hp, hdir⟩ := isDir_iff.mp hroot
  have hstat : (format (default : Stack).direct).tree.stat 0 = some ⟨mfsDirectory, 4096⟩ := by
    rw [htree]
    decide +kernel
  rw [hwf.stat_eq hp, Option.some.injEq, Stat.mk.injEq] at hstat
  have hout : ¬ InRange (((format (default : Stack).direct).inode 0).dpointers 1) := by
    rw [hwf.second_pointer hp hdir hstat.2]
    decide
  have hcond := (read_dir_iff (Run.nil _) hp hdir).2 (fun hr => absurd hr hout) hall
  exact hout (hwf.inRange _ hcond.1)

/-- Directory `"a"` of the root: the entry that is returned for it has another inode number. -/
theorem not_read_dir :
    ¬ ∀ (xs : List Turn) (s : Server), Run turn Admitted (format (default : Stack).direct) xs s →
      ∀ d, s.Allocated d → (s.inode d).type = mfsDirectory → (∃ n, s.Lists d n) →
        ∀ st buffer block, 0 ≤ block → block ≤ 13 → (readServer s d buffer block st).1 = 0 ∧
          ∃ n, s.Lists d n ∧
            Shows (DirEnt.decode (readServer s d buffer block st).2.1.mem) d n := by
  intro hclaim
  obtain ⟨s, hrun, h, htree, _⟩ := run_of_requests (default : Stack).direct
    [(.creat 0 mfsDirectory ⟨[97], by decide, by decide⟩, default)] (by decide +kernel) (by decide)
  have hslot : s.tree.slotAt 1 1 = some (some (Name.dotdot.bytes, 0)) := by
    rw [htree]
    decide +kernel
  have hslot' : s.tree.slotAt 0 2 = some (some ([97], 1)) := by
    rw [htree]
    decide +kernel
  have hstat : s.tree.stat 1 = some ⟨mfsDirectory, 4096⟩ := by
    rw [htree]
    decide +kernel
  obtain ⟨hd, hdir⟩ := isDir_iff.mp (Fs.entry_of_slotAt hslot).isDir
  rw [h.stat_eq hd, Option.some.injEq, Stat.mk.injEq] at hstat
  have hparent : s.HasEntry 1 0 1 Name.dotdot.bytes 0 := h.hasEntry_iff.mpr (Fs.entry_of_slotAt hslot)
  have hentry : s.HasEntry 0 0 2 [97] 1 := h.hasEntry_iff.mpr (Fs.entry_of_slotAt hslot')
  have hlists : s.Lists 1 [97] := by
    rw [Server.Lists, if_neg (by decide)]
    exact ⟨0, 1, 0, hparent, 0, 2, hentry⟩
  have hout : ¬ InRange ((s.inode 1).dpointers 1) := by
    rw [h.second_pointer hd hdir hstat.2]
    decide
  obtain ⟨_, n, _, hshow⟩ := hclaim _ s hrun 1 hd hdir ⟨_, hlists⟩ (blankStack 1) (fun _ => 0) 0
    (by decide) (by decide)
  exact succ_ne_self 1 ((h.read_dir_lost hd hdir (by decide) (by decide) hout).symm.trans hshow.1)

end Read

end Linux
end LfsXv6
