import LfsXv6.Xv6.Vm

/-!
# VmPages — who owns a page

A page directory owns itself, the page tables that its entries refer to, and the user pages below
`USERTOP`.  Together with the free list these are the pool that the functions of `vm.c` move pages in:
mapping and unmapping leave the pool as it was, and `freevm` puts all of it on the free list.
-/

namespace LfsXv6
namespace Xv6
namespace Vm

open Lib Prog

/-! ## Sums after the change of one word -/

/-- Changing one argument of a sum exchanges one summand. -/
theorem sum_update_add {ι β : Type} {M : Type} [Fintype ι] [DecidableEq ι] [AddCommMonoid M]
    (g : ι → β → M) (w : ι → β) (j : ι) (v : β) :
    ∑ i, g i (Function.update w j v i) + g j (w j) = ∑ i, g i (w i) + g j v := by
  have hrest : ∑ i ∈ Finset.univ.erase j, g i (Function.update w j v i) =
      ∑ i ∈ Finset.univ.erase j, g i (w i) := by
    refine Finset.sum_congr rfl ?_
    intro i hi
    rw [Function.update_of_ne (Finset.ne_of_mem_erase hi)]
  rw [← Finset.add_sum_erase Finset.univ _ (Finset.mem_univ j),
    ← Finset.add_sum_erase Finset.univ (fun i => g i (w i)) (Finset.mem_univ j), hrest,
    Function.update_self]
  abel

/-! ## Entries -/

section Entries

variable {p perm : Nat}

theorem pte_present (h : perm % 2 = 0) : Present (pte p perm) := by
  simp only [Present, pte]
  omega

theorem pteAddr_pte (h : perm < 4095) : pteAddr (pte p perm) = p := by
  simp only [pteAddr, pte]
  omega

/-- The page that an entry refers to. -/
def target (w : Nat) : Multiset Nat := if Present w then {pteAddr w} else 0

theorem target_of_present {w : Nat} (h : Present w) : target w = {pteAddr w} := if_pos h

theorem target_of_absent {w : Nat} (h : ¬ Present w) : target w = 0 := if_neg h

theorem target_pte : target (pte p 6) = {p} := by
  rw [target_of_present (pte_present rfl), pteAddr_pte (by decide)]

@[simp] theorem target_zero : target 0 = 0 := rfl

theorem mem_target {w : Nat} : p ∈ target w ↔ Present w ∧ pteAddr w = p := by
  unfold target
  split
  · rename_i h
    simp [h, eq_comm]
  · rename_i h
    simp [h]

end Entries

/-! ## Owned pages -/

/-- The pages that the entries of a page table for user memory refer to. -/
@[irreducible] def userTargets (w : Words) : Multiset Nat := ∑ j : Fin 1024, if j.val < 160 then target (w j) else 0

/-- The page tables of a directory. -/
@[irreducible] def tables (m : Memory) (d : Nat) : Multiset Nat := ∑ i, target (m.page d i)

/-- The page table for user memory. -/
def first (m : Memory) (d : Nat) : Nat := pteAddr (m.page d 0)

/-- The user pages of a directory. -/
def users (m : Memory) (d : Nat) : Multiset Nat :=
  if Present (m.page d 0) then userTargets (m.page (first m d)) else 0

/-- All pages of a directory. -/
def owned (m : Memory) (d : Nat) : Multiset Nat := {d} + tables m d + users m d

/-- The free pages and those of a directory. -/
def pool (m : Memory) (d : Nat) : Multiset Nat := ↑m.freelist + owned m d

theorem mem_tables {m : Memory} {d p : Nat} :
    p ∈ tables m d ↔ ∃ i, Present (m.page d i) ∧ pteAddr (m.page d i) = p := by
  unfold tables
  rw [Multiset.mem_sum]
  refine ⟨?_, ?_⟩
  · rintro ⟨i, _, hi⟩
    exact ⟨i, mem_target.mp hi⟩
  · rintro ⟨i, hi⟩
    exact ⟨i, Finset.mem_univ i, mem_target.mpr hi⟩

theorem mem_userTargets {w : Words} {p : Nat} :
    p ∈ userTargets w ↔ ∃ j : Fin 1024, j.val < 160 ∧ Present (w j) ∧ pteAddr (w j) = p := by
  unfold userTargets
  rw [Multiset.mem_sum]
  refine ⟨?_, ?_⟩
  · rintro ⟨j, _, hj⟩
    split at hj
    · rename_i hlt
      exact ⟨j, hlt, mem_target.mp hj⟩
    · simp at hj
  · rintro ⟨j, hlt, hj⟩
    refine ⟨j, Finset.mem_univ j, ?_⟩
    rw [if_pos hlt]
    exact mem_target.mpr hj

/-- What a directory owns is read off its own page and the first page table. -/
theorem owned_congr {m m' : Memory} {d : Nat} (hdir : m'.page d = m.page d)
    (hfirst : Present (m.page d 0) → m'.page (first m d) = m.page (first m d)) :
    owned m' d = owned m d := by
  have htables : tables m' d = tables m d := by
    unfold tables
    rw [hdir]
  have husers : users m' d = users m d := by
    unfold users first
    rw [hdir]
    split
    · rename_i h
      exact congrArg userTargets (hfirst h)
    · rfl
  rw [owned, owned, htables, husers]

section Apart

variable {m : Memory} {d : Nat} {i : Fin 1024}

theorem table_mem_pool (hi : Present (m.page d i)) : pteAddr (m.page d i) ∈ pool m d := by
  have hmem : pteAddr (m.page d i) ∈ tables m d := mem_tables.mpr ⟨i, hi, rfl⟩
  simp [pool, owned, hmem]

theorem dir_mem_pool (m : Memory) (d : Nat) : d ∈ pool m d := by simp [pool, owned]

theorem user_mem_pool {j : Fin 1024} (h0 : Present (m.page d 0)) (hj : j.val < 160)
    (hp : Present (m.page (first m d) j)) : pteAddr (m.page (first m d) j) ∈ pool m d := by
  have hmem : pteAddr (m.page (first m d) j) ∈ users m d := by
    rw [users, if_pos h0]
    exact mem_userTargets.mpr ⟨j, hj, hp, rfl⟩
  simp [pool, owned, hmem]

theorem owned_nodup (h : (pool m d).Nodup) : (owned m d).Nodup := (Multiset.nodup_add.mp h).2.1

theorem table_ne_dir (h : (owned m d).Nodup) (hi : Present (m.page d i)) :
    pteAddr (m.page d i) ≠ d := by
  intro heq
  have hdis := (Multiset.nodup_add.mp (Multiset.nodup_add.mp h).1).2.2
  exact Multiset.disjoint_left.mp hdis (Multiset.mem_singleton_self d)
    (mem_tables.mpr ⟨i, hi, heq⟩)

/-- Two summands of a sum without repetitions have nothing in common. -/
theorem eq_of_mem_sum {ι : Type} [Fintype ι] [DecidableEq ι] {g : ι → Multiset Nat}
    (h : (∑ i, g i).Nodup) {i i' : ι} {p : Nat} (hi : p ∈ g i) (hi' : p ∈ g i') : i = i' := by
  by_contra hne
  rw [← Finset.add_sum_erase Finset.univ g (Finset.mem_univ i)] at h
  refine Multiset.disjoint_left.mp (Multiset.nodup_add.mp h).2.2 hi ?_
  rw [Multiset.mem_sum]
  exact ⟨i', Finset.mem_erase.mpr ⟨fun h => hne h.symm, Finset.mem_univ i'⟩, hi'⟩

set_option maxRecDepth 2048 in
/-- Two entries of a directory refer to two page tables. -/
theorem table_inj {i' : Fin 1024} (h : (owned m d).Nodup) (hi : Present (m.page d i))
    (hi' : Present (m.page d i')) (heq : pteAddr (m.page d i) = pteAddr (m.page d i')) : i = i' := by
  have hnodup : (tables m d).Nodup := (Multiset.nodup_add.mp (Multiset.nodup_add.mp h).1).2.1
  unfold tables at hnodup
  have hin : pteAddr (m.page d i) ∈ target (m.page d i) := mem_target.mpr ⟨hi, rfl⟩
  have hin' : pteAddr (m.page d i) ∈ target (m.page d i') := mem_target.mpr ⟨hi', heq.symm⟩
  exact eq_of_mem_sum (g := fun i => target (m.page d i)) hnodup hin hin'

set_option maxRecDepth 2048 in
/-- Two entries for user memory refer to two pages. -/
theorem user_inj {j j' : Fin 1024} (h : (owned m d).Nodup) (h0 : Present (m.page d 0))
    (hj : j.val < 160) (hj' : j'.val < 160) (hp : Present (m.page (first m d) j))
    (hp' : Present (m.page (first m d) j'))
    (heq : pteAddr (m.page (first m d) j) = pteAddr (m.page (first m d) j')) : j = j' := by
  have hnodup : (users m d).Nodup := (Multiset.nodup_add.mp h).2.1
  rw [users, if_pos h0] at hnodup
  unfold userTargets at hnodup
  have hin : pteAddr (m.page (first m d) j) ∈
      (if j.val < 160 then target (m.page (first m d) j) else 0) := by
    rw [if_pos hj]
    exact mem_target.mpr ⟨hp, rfl⟩
  have hin' : pteAddr (m.page (first m d) j) ∈
      (if j'.val < 160 then target (m.page (first m d) j') else 0) := by
    rw [if_pos hj']
    exact mem_target.mpr ⟨hp', heq.symm⟩
  exact eq_of_mem_sum (g := fun j : Fin 1024 => if j.val < 160 then target (m.page (first m d) j) else 0)
    hnodup hin hin'

theorem user_ne_dir {p : Nat} (h : (owned m d).Nodup) (hp : p ∈ users m d) : p ≠ d := by
  rintro rfl
  exact Multiset.disjoint_left.mp (Multiset.nodup_add.mp h).2.2 (by simp) hp

theorem user_ne_table {p : Nat} (h : (owned m d).Nodup) (hp : p ∈ users m d)
    (hi : Present (m.page d i)) : p ≠ pteAddr (m.page d i) := by
  rintro rfl
  exact Multiset.disjoint_left.mp (Multiset.nodup_add.mp h).2.2
    (Multiset.mem_add.mpr (.inr (mem_tables.mpr ⟨i, hi, rfl⟩))) hp

theorem free_not_owned {p : Nat} (h : (pool m d).Nodup) (hp : p ∈ m.freelist) : p ∉ owned m d :=
  Multiset.disjoint_left.mp (Multiset.nodup_add.mp h).2.2 (by simpa using hp)

end Apart

/-! ## Words and pages that change -/

section Memory

variable {m : Memory} {p q v : Nat} {w : Words} {j : Fin 1024}

@[simp] theorem setPage_freelist : (m.setPage p w).freelist = m.freelist := rfl

@[simp] theorem setWord_freelist : (m.setWord p j v).freelist = m.freelist := rfl

@[simp] theorem setPage_self : (m.setPage p w).page p = w := Function.update_self ..

theorem setPage_ne (h : q ≠ p) : (m.setPage p w).page q = m.page q := Function.update_of_ne h ..

@[simp] theorem setWord_self : (m.setWord p j v).page p = Function.update (m.page p) j v :=
  Function.update_self ..

theorem setWord_ne (h : q ≠ p) : (m.setWord p j v).page q = m.page q := Function.update_of_ne h ..

end Memory

/-- Pages have moved in the pool of a directory, and no others have changed. -/
structure Moved (d : Nat) (m m' : Memory) : Prop where
  pool : pool m' d = pool m d
  frame : ∀ p, p ∉ Vm.pool m d → m'.page p = m.page p

theorem Moved.refl (d : Nat) (m : Memory) : Moved d m m := ⟨rfl, fun _ _ => rfl⟩

theorem Moved.trans {d : Nat} {m m' m'' : Memory} (h : Moved d m m') (h' : Moved d m' m'') :
    Moved d m m'' := by
  refine ⟨h'.pool.trans h.pool, ?_⟩
  intro p hp
  rw [h'.frame p (by rw [h.pool]; exact hp), h.frame p hp]

section Changes

variable {m : Memory} {d t p : Nat} {i j : Fin 1024} {rest : List Nat}

/-- A new page table. -/
def newTable (m : Memory) (d t : Nat) (i : Fin 1024) (rest : List Nat) : Memory :=
  (({ m with freelist := rest } : Memory).setPage t fun _ => 0).setWord d i (pte t 6)

theorem newTable_dir (hne : d ≠ t) :
    (newTable m d t i rest).page d = Function.update (m.page d) i (pte t 6) := by
  rw [newTable, setWord_self, setPage_ne hne]

theorem newTable_table (hne : t ≠ d) : (newTable m d t i rest).page t = fun _ => 0 := by
  rw [newTable, setWord_ne hne, setPage_self]

theorem newTable_ne (hd : p ≠ d) (ht : p ≠ t) : (newTable m d t i rest).page p = m.page p := by
  rw [newTable, setWord_ne hd, setPage_ne ht]

theorem userTargets_zero : userTargets (fun _ => 0) = 0 := by
  unfold userTargets
  exact Finset.sum_eq_zero fun j _ => by simp

theorem newTable_moved (h : (pool m d).Nodup) (hfree : m.freelist = t :: rest)
    (habs : ¬ Present (m.page d i)) : Moved d m (newTable m d t i rest) := by
  have htfree : t ∈ m.freelist := by rw [hfree]; exact List.mem_cons_self
  have hfresh : t ∉ owned m d := free_not_owned h htfree
  have hne : t ≠ d := by
    rintro rfl
    exact hfresh (by simp [owned])
  have hdir : (newTable m d t i rest).page d = Function.update (m.page d) i (pte t 6) :=
    newTable_dir hne.symm
  have htables : tables (newTable m d t i rest) d = tables m d + {t} := by
    have hsum := sum_update_add (fun _ w => target w) (m.page d) i (pte t 6)
    unfold tables
    rw [hdir, ← target_pte (p := t), ← hsum, target_of_absent habs, add_zero]
  have husers : users (newTable m d t i rest) d = users m d := by
    unfold users first
    rw [hdir]
    by_cases hi : (0 : Fin 1024) = i
    · subst hi
      rw [Function.update_self, if_pos (pte_present rfl), pteAddr_pte (by decide),
        newTable_table hne, userTargets_zero, if_neg habs]
    · rw [Function.update_of_ne hi]
      split
      · rename_i h0
        have hdis : pteAddr (m.page d 0) ≠ t := by
          intro heq
          refine hfresh ?_
          rw [← heq]
          simp only [owned, Multiset.mem_add]
          exact .inl (.inr (mem_tables.mpr ⟨0, h0, rfl⟩))
        rw [newTable_ne (table_ne_dir (owned_nodup h) h0) hdis]
      · rfl
  refine ⟨?_, ?_⟩
  · have hlist : (newTable m d t i rest).freelist = rest := rfl
    rw [pool, pool, owned, owned, htables, husers, hlist, hfree, ← Multiset.cons_coe,
      ← Multiset.singleton_add]
    abel
  · intro p hp
    refine newTable_ne ?_ ?_
    · rintro rfl
      exact hp (dir_mem_pool m p)
    · rintro rfl
      exact hp (by simp [pool, htfree])

/-- A word of a page table that is not an entry for user memory. -/
theorem kernelWord_owned (v : Nat) (h : (owned m d).Nodup) (hi : Present (m.page d i))
    (hj : i ≠ 0 ∨ 160 ≤ j.val) : owned (m.setWord (pteAddr (m.page d i)) j v) d = owned m d := by
  have hdir : (m.setWord (pteAddr (m.page d i)) j v).page d = m.page d :=
    setWord_ne (table_ne_dir h hi).symm
  by_cases h0 : Present (m.page d 0)
  · by_cases hi0 : i = 0
    · subst hi0
      have hj' : 160 ≤ j.val := hj.resolve_left fun hne => hne rfl
      have hsame : userTargets (Function.update (m.page (first m d)) j v) =
          userTargets (m.page (first m d)) := by
        unfold userTargets
        refine Finset.sum_congr rfl ?_
        intro j' _
        by_cases hlt : j'.val < 160
        · have hne : j' ≠ j := by
            rintro rfl
            omega
          rw [Function.update_of_ne hne]
        · rw [if_neg hlt, if_neg hlt]
      have hfirst : (m.setWord (pteAddr (m.page d 0)) j v).page (first m d) =
          Function.update (m.page (first m d)) j v := setWord_self
      have htables : tables (m.setWord (pteAddr (m.page d 0)) j v) d = tables m d := by
        unfold tables
        rw [hdir]
      have husers : users (m.setWord (pteAddr (m.page d 0)) j v) d = users m d := by
        have hfirst' : first (m.setWord (pteAddr (m.page d 0)) j v) d = first m d := by
          unfold first
          rw [hdir]
        rw [users, users, hdir, hfirst', hfirst, hsame]
      rw [owned, owned, htables, husers]
    · refine owned_congr hdir fun _ => setWord_ne ?_
      intro heq
      exact hi0 (table_inj h hi h0 heq.symm)
  · exact owned_congr hdir fun h => absurd h h0

theorem kernelWord_moved (v : Nat) (h : (pool m d).Nodup) (hi : Present (m.page d i))
    (hj : i ≠ 0 ∨ 160 ≤ j.val) : Moved d m (m.setWord (pteAddr (m.page d i)) j v) := by
  refine ⟨?_, ?_⟩
  · rw [pool, pool, kernelWord_owned v (owned_nodup h) hi hj, setWord_freelist]
  · intro p hp
    refine setWord_ne ?_
    rintro rfl
    exact hp (table_mem_pool hi)

end Changes

/-- Only user pages, and the entries from `a` to `b` that refer to them, have changed. -/
structure Within (d a b : Nat) (m m' : Memory) : Prop where
  moved : Moved d m m'
  dir : m'.page d = m.page d
  tables : ∀ i, i ≠ 0 → Present (m.page d i) →
    m'.page (pteAddr (m.page d i)) = m.page (pteAddr (m.page d i))
  words : ∀ j : Fin 1024, ¬ (a ≤ j.val ∧ j.val < b) → m'.page (first m d) j = m.page (first m d) j

namespace Within

variable {d a b a' b' : Nat} {m m' m'' : Memory}

theorem refl (d a b : Nat) (m : Memory) : Within d a b m m :=
  ⟨.refl d m, rfl, fun _ _ _ => rfl, fun _ _ => rfl⟩

theorem first_eq (h : Within d a b m m') : first m' d = first m d := by
  unfold first
  rw [h.dir]

theorem trans (h : Within d a b m m') (h' : Within d a b m' m'') : Within d a b m m'' := by
  refine ⟨h.moved.trans h'.moved, h'.dir.trans h.dir, ?_, ?_⟩
  · intro i hi hp
    have hstep := h'.tables i hi (by rw [h.dir]; exact hp)
    rw [h.dir] at hstep
    rw [hstep, h.tables i hi hp]
  · intro j hj
    have hstep := h'.words j hj
    rw [h.first_eq] at hstep
    rw [hstep, h.words j hj]

theorem mono (h : Within d a b m m') (ha : a' ≤ a) (hb : b ≤ b') : Within d a' b' m m' :=
  ⟨h.moved, h.dir, h.tables, fun j hj => h.words j fun hin => hj ⟨by omega, by omega⟩⟩

theorem nodup (h : Within d a b m m') (hn : (pool m d).Nodup) : (pool m' d).Nodup := by
  rw [h.moved.pool]
  exact hn

theorem present (h : Within d a b m m') (h0 : Present (m.page d 0)) : Present (m'.page d 0) := by
  rw [h.dir]
  exact h0

/-- Where the entries in between are absent before and after, the same pages are free. -/
theorem free_eq (h : Within d a b m m')
    (habs : ∀ j : Fin 1024, a ≤ j.val → j.val < b → ¬ Present (m.page (first m d) j))
    (habs' : ∀ j : Fin 1024, a ≤ j.val → j.val < b → ¬ Present (m'.page (first m d) j)) :
    (↑m'.freelist : Multiset Nat) = ↑m.freelist := by
  have hsame : userTargets (m'.page (first m d)) = userTargets (m.page (first m d)) := by
    unfold userTargets
    refine Finset.sum_congr rfl ?_
    intro j _
    by_cases hj : a ≤ j.val ∧ j.val < b
    · rw [target_of_absent (habs j hj.1 hj.2), target_of_absent (habs' j hj.1 hj.2)]
    · rw [h.words j hj]
  have htables : Vm.tables m' d = Vm.tables m d := by
    unfold Vm.tables
    rw [h.dir]
  have howned : owned m' d = owned m d := by
    rw [owned, owned, htables, users, users, h.dir, h.first_eq, hsame]
  have hpool := h.moved.pool
  rw [pool, pool, howned] at hpool
  exact add_right_cancel hpool

end Within

section UserChanges

variable {m : Memory} {d p a b : Nat} {w : Words} {j : Fin 1024} {fl : List Nat} {v : Nat}

/-- A user page that is written to. -/
theorem userPage_within (w : Words) (h : (pool m d).Nodup) (h0 : Present (m.page d 0))
    (hj : j.val < 160) (hp : Present (m.page (first m d) j)) :
    Within d a b m (m.setPage (pteAddr (m.page (first m d) j)) w) := by
  have hmem : pteAddr (m.page (first m d) j) ∈ users m d := by
    rw [users, if_pos h0]
    exact mem_userTargets.mpr ⟨j, hj, hp, rfl⟩
  have hdir := user_ne_dir (owned_nodup h) hmem
  have hfirst : first m d ≠ pteAddr (m.page (first m d) j) :=
    (user_ne_table (owned_nodup h) hmem h0).symm
  have howned : owned (m.setPage (pteAddr (m.page (first m d) j)) w) d = owned m d :=
    owned_congr (setPage_ne hdir.symm) fun _ => setPage_ne hfirst
  refine ⟨⟨?_, ?_⟩, setPage_ne hdir.symm, ?_, ?_⟩
  · rw [pool, pool, howned, setPage_freelist]
  · intro q hq
    refine setPage_ne ?_
    rintro rfl
    exact hq (user_mem_pool h0 hj hp)
  · intro i _ hi
    exact setPage_ne (user_ne_table (owned_nodup h) hmem hi).symm
  · intro j' _
    rw [setPage_ne hfirst]

/-- An entry for user memory that changes along with the free list, and the page `p` it is about. -/
theorem userWord_within (h : (pool m d).Nodup) (h0 : Present (m.page d 0)) (hj : j.val < 160)
    (ha : a ≤ j.val) (hb : j.val < b) (hp : p ∈ pool m d) (hpd : p ≠ d) (hpt : p ∉ tables m d)
    (hfl : (↑fl : Multiset Nat) + target v = ↑m.freelist + target (m.page (first m d) j)) :
    Within d a b m ((({ m with freelist := fl } : Memory).setPage p w).setWord (first m d) j v) := by
  set m' := (({ m with freelist := fl } : Memory).setPage p w).setWord (first m d) j v with hm'
  have hnd := owned_nodup h
  have hfd : first m d ≠ d := table_ne_dir hnd h0
  have hfp : first m d ≠ p := by
    rintro rfl
    exact hpt (mem_tables.mpr ⟨0, h0, rfl⟩)
  have hdir : m'.page d = m.page d := by rw [hm', setWord_ne hfd.symm, setPage_ne hpd.symm]
  have hfirst : m'.page (first m d) = Function.update (m.page (first m d)) j v := by
    rw [hm', setWord_self, setPage_ne hfp]
  have hother : ∀ q, q ≠ first m d → q ≠ p → m'.page q = m.page q := by
    intro q hq hqp
    rw [hm', setWord_ne hq, setPage_ne hqp]
  have hwords : userTargets (m'.page (first m d)) + target (m.page (first m d) j) =
      userTargets (m.page (first m d)) + target v := by
    have hsum := sum_update_add (fun (i : Fin 1024) w => if i.val < 160 then target w else 0)
      (m.page (first m d)) j v
    rw [if_pos hj, if_pos hj] at hsum
    rw [hfirst]
    unfold userTargets
    exact hsum
  have htables : tables m' d = tables m d := by
    unfold tables
    rw [hdir]
  have hfirst' : first m' d = first m d := by
    unfold first
    rw [hdir]
  refine ⟨⟨?_, ?_⟩, hdir, ?_, ?_⟩
  · have hlist : m'.freelist = fl := rfl
    rw [pool, pool, owned, owned, htables, users, users, hdir, hfirst', if_pos h0, if_pos h0,
      hlist]
    refine add_right_cancel (b := target v + target (m.page (first m d) j)) ?_
    calc ↑fl + ({d} + tables m d + userTargets (m'.page (first m d))) +
          (target v + target (m.page (first m d) j))
        = (↑fl + target v) + ({d} + tables m d) +
          (userTargets (m'.page (first m d)) + target (m.page (first m d) j)) := by abel
      _ = (↑m.freelist + target (m.page (first m d) j)) + ({d} + tables m d) +
          (userTargets (m.page (first m d)) + target v) := by rw [hfl, hwords]
      _ = ↑m.freelist + ({d} + tables m d + userTargets (m.page (first m d))) +
          (target v + target (m.page (first m d) j)) := by abel
  · intro q hq
    refine hother q ?_ ?_
    · rintro rfl
      exact hq (table_mem_pool h0)
    · rintro rfl
      exact hq hp
  · intro i hi hpi
    refine hother _ ?_ ?_
    · intro heq
      exact hi (table_inj hnd hpi h0 heq)
    · rintro rfl
      exact hpt (mem_tables.mpr ⟨i, hpi, rfl⟩)
  · intro j' hj'
    have hne : j' ≠ j := by
      rintro rfl
      exact hj' ⟨ha, hb⟩
    rw [hfirst, Function.update_of_ne hne]

end UserChanges

/-! ## What the functions return -/

section Returns

variable {k : Link} {m t : Memory} {d vp p perm : Nat}

theorem kalloc_cases {r : Option Nat} (h : kalloc m = .ok (r, t)) :
    (m.freelist = [] ∧ r = none ∧ t = m) ∨
      ∃ q rest, m.freelist = q :: rest ∧ r = some q ∧ t = { m with freelist := rest } := by
  unfold kalloc at h
  split at h
  · rename_i hfree
    cases h
    exact .inl ⟨hfree, rfl, rfl⟩
  · rename_i q rest hfree
    cases h
    exact .inr ⟨q, rest, hfree, rfl, rfl⟩

theorem kfree_eq {r : Unit} (h : kfree k p m = .ok (r, t)) :
    t = ({ m with freelist := p :: m.freelist } : Memory).setPage p fun _ => 0x01010101 := by
  unfold kfree at h
  split at h
  · cases h
  · cases h
    rfl

theorem walkpgdir_found {create : Bool} (hp : Present (m.page d (pdx vp))) :
    walkpgdir d vp create m = .ok (some (pteAddr (m.page d (pdx vp)), ptx vp), m) := by
  rw [walkpgdir, bind_of_ok (x := look fun m : Memory => m.page d (pdx vp)) rfl, if_pos hp]
  rfl

theorem walkpgdir_absent (hp : ¬ Present (m.page d (pdx vp))) :
    walkpgdir d vp false m = .ok (none, m) := by
  rw [walkpgdir, bind_of_ok (x := look fun m : Memory => m.page d (pdx vp)) rfl, if_neg hp]
  rfl

theorem walkpgdir_create {r : Option (Nat × Fin 1024)} (hp : ¬ Present (m.page d (pdx vp)))
    (h : walkpgdir d vp true m = .ok (r, t)) : (m.freelist = [] ∧ r = none ∧ t = m) ∨
      ∃ q rest, m.freelist = q :: rest ∧ r = some (q, ptx vp) ∧ t = newTable m d q (pdx vp) rest := by
  rw [walkpgdir, bind_of_ok (x := look fun m : Memory => m.page d (pdx vp)) rfl, if_neg hp,
    if_pos rfl] at h
  obtain ⟨a, u, hk, hrun⟩ := bind_eq_ok h
  rcases kalloc_cases hk with ⟨hfree, rfl, rfl⟩ | ⟨q, rest, hfree, rfl, rfl⟩
  · cases hrun
    exact .inl ⟨hfree, rfl, rfl⟩
  · cases hrun
    exact .inr ⟨q, rest, hfree, rfl, rfl⟩

theorem pdx_user (h : vp < 160) : pdx vp = 0 := by
  refine Fin.ext ?_
  show vp / 1024 % 1024 = 0
  omega

theorem ptx_user (h : vp < 160) : (ptx vp).val = vp := by
  show vp % 1024 = vp
  omega

/-- The end of `mapPage` where the page table exists. -/
theorem mapPage_found {r : Bool} (hp : Present (m.page d (pdx vp)))
    (h : mapPage d vp p perm m = .ok (r, t)) :
    r = true ∧ ¬ Present (m.page (pteAddr (m.page d (pdx vp))) (ptx vp)) ∧
      t = m.setWord (pteAddr (m.page d (pdx vp))) (ptx vp) (pte p perm) := by
  rw [mapPage, bind_of_ok (walkpgdir_found hp)] at h
  obtain ⟨w, u, hw, h⟩ := bind_eq_ok h
  cases hw
  split at h
  · cases h
  · rename_i habs
    cases h
    exact ⟨rfl, habs, rfl⟩

theorem mappages_one : mappages d (pgsize * vp) pgsize (pgsize * p) perm =
    mapLoop d perm ((pgsize * vp + 4095) % 2 ^ 32 / pgsize - vp) vp p := by
  have hvp : pgsize * vp / pgsize = vp := Nat.mul_div_cancel_left vp (by decide)
  have hp : pgsize * p / pgsize = p := Nat.mul_div_cancel_left p (by decide)
  rw [mappages, hvp, hp]
  rfl

theorem mappages_user (h : vp < 160) :
    mappages d (pgsize * vp) pgsize (pgsize * p) perm = mapPage d vp p perm := by
  have hn : (pgsize * vp + 4095) % 2 ^ 32 / pgsize - vp = 0 := by
    simp only [pgsize]
    omega
  rw [mappages_one, hn]
  rfl

/-- A free page is mapped into user memory. -/
theorem mapUser_within {rest : List Nat} {w : Words} {r : Bool} (hvp : vp < 160)
    (h : (pool m d).Nodup) (h0 : Present (m.page d 0)) (hfree : m.freelist = p :: rest)
    (hrun : mappages d (pgsize * vp) pgsize (pgsize * p) 6
      (({ m with freelist := rest } : Memory).setPage p w) = .ok (r, t)) :
    r = true ∧ Within d vp (vp + 1) m t ∧ Present (t.page (first m d) (ptx vp)) := by
  have hpfree : p ∈ m.freelist := by rw [hfree]; exact List.mem_cons_self
  have hfresh : p ∉ owned m d := free_not_owned h hpfree
  have hpd : p ≠ d := by
    rintro rfl
    exact hfresh (by simp [owned])
  have hpt : p ∉ tables m d := fun hp => hfresh (by simp [owned, hp])
  have hfp : first m d ≠ p := by
    rintro rfl
    exact hpt (mem_tables.mpr ⟨0, h0, rfl⟩)
  set u := ({ m with freelist := rest } : Memory).setPage p w with hu
  have hdir : u.page d = m.page d := setPage_ne hpd.symm
  have hfirst : u.page (first m d) = m.page (first m d) := setPage_ne hfp
  rw [mappages_user hvp] at hrun
  obtain ⟨hr, habs, ht⟩ := mapPage_found (by rw [pdx_user hvp, hdir]; exact h0) hrun
  rw [pdx_user hvp, hdir] at habs ht
  change ¬ Present (u.page (first m d) (ptx vp)) at habs
  change t = u.setWord (first m d) (ptx vp) (pte p 6) at ht
  rw [hfirst] at habs
  have hj : (ptx vp).val < 160 := by rw [ptx_user hvp]; exact hvp
  refine ⟨hr, ?_, ?_⟩
  · rw [ht, hu]
    refine userWord_within h h0 hj (ptx_user hvp).ge ?_ ?_ hpd hpt ?_
    · rw [ptx_user hvp]
      exact Nat.lt_succ_self vp
    · simp [pool, hpfree]
    · rw [target_pte, target_of_absent habs, hfree, ← Multiset.cons_coe, ← Multiset.singleton_add]
      abel
  · rw [ht, setWord_self, Function.update_self]
    exact pte_present rfl

/-- A turn of `deallocuvm`. -/
theorem freePage_within {r : Unit} (hvp : vp < 160) (h : (pool m d).Nodup)
    (h0 : Present (m.page d 0)) (hrun : freePage k d vp m = .ok (r, t)) :
    Within d vp (vp + 1) m t ∧ ¬ Present (t.page (first m d) (ptx vp)) := by
  have hj : (ptx vp).val < 160 := by rw [ptx_user hvp]; exact hvp
  rw [freePage, bind_of_ok (walkpgdir_found (by rw [pdx_user hvp]; exact h0)), pdx_user hvp] at hrun
  obtain ⟨w, u, hw, hrun⟩ := bind_eq_ok hrun
  cases hw
  change (if Present (m.page (first m d) (ptx vp)) then _ else _ : Prog Memory Unit) m = _ at hrun
  split at hrun
  · rename_i hp
    split at hrun
    · cases hrun
    · obtain ⟨_, u, hk, hrun⟩ := bind_eq_ok hrun
      have hu := kfree_eq hk
      have ht : t = u.setWord (first m d) (ptx vp) 0 := assign_eq_ok hrun
      have hmem : pteAddr (m.page (first m d) (ptx vp)) ∈ users m d := by
        rw [users, if_pos h0]
        exact mem_userTargets.mpr ⟨ptx vp, hj, hp, rfl⟩
      have hpt : pteAddr (m.page (first m d) (ptx vp)) ∉ tables m d := by
        intro htab
        obtain ⟨i, hi, heq⟩ := mem_tables.mp htab
        exact user_ne_table (owned_nodup h) hmem hi heq.symm
      refine ⟨?_, ?_⟩
      · rw [ht, hu]
        refine userWord_within h h0 hj (ptx_user hvp).ge ?_ (user_mem_pool h0 hj hp)
          (user_ne_dir (owned_nodup h) hmem) hpt ?_
        · rw [ptx_user hvp]
          exact Nat.lt_succ_self vp
        · change (↑(pteAddr (m.page (first m d) (ptx vp)) :: m.freelist) : Multiset Nat) + target 0 = _
          rw [target_zero, target_of_present hp, ← Multiset.cons_coe, ← Multiset.singleton_add]
          abel
      · rw [ht, setWord_self, Function.update_self]
        decide
  · rename_i hp
    cases hrun
    exact ⟨.refl .., hp⟩

end Returns

/-! ## Growing and shrinking -/

section Sizes

variable {k : Link} {d : Nat}

theorem pgroundup_le {sz : Nat} (h : sz ≤ usertop) : pgroundup sz ≤ 160 := by
  simp only [pgroundup, usertop] at h ⊢
  omega

theorem pgroundup_mono {sz sz' : Nat} (h : sz ≤ sz') : pgroundup sz ≤ pgroundup sz' := by
  simp only [pgroundup]
  omega

theorem freePages_within {n a : Nat} {m t : Memory} {r : Unit} (hn : a + n ≤ 160)
    (h : (pool m d).Nodup) (h0 : Present (m.page d 0))
    (hrun : each (freePage k d) (List.range' a n) m = .ok (r, t)) :
    Within d a (a + n) m t ∧
      ∀ j : Fin 1024, a ≤ j.val → j.val < a + n → ¬ Present (t.page (first m d) j) := by
  induction n generalizing a m with
  | zero =>
      cases hrun
      exact ⟨.refl .., fun j hj hj' => absurd hj (by omega)⟩
  | succ n ih =>
      rw [List.range'_succ, each] at hrun
      obtain ⟨_, u, hone, hrest⟩ := bind_eq_ok hrun
      obtain ⟨hw, habs⟩ := freePage_within (by omega) h h0 hone
      obtain ⟨hw', habs'⟩ := ih (by omega) (hw.nodup h) (hw.present h0) hrest
      rw [hw.first_eq] at habs'
      refine ⟨(hw.mono le_rfl (by omega)).trans (hw'.mono (by omega) (by omega)), ?_⟩
      intro j hj hj'
      by_cases hja : j.val = a
      · -- The later turns leave this entry as it is.
        have hword := hw'.words j (by omega)
        rw [hw.first_eq] at hword
        have hjp : j = ptx a := Fin.ext (by rw [ptx_user (by omega)]; exact hja)
        rw [hword, hjp]
        exact habs
      · exact habs' j (by omega) (by omega)

theorem deallocuvm_within {oldsz newsz r : Nat} {m t : Memory} (hold : oldsz ≤ usertop)
    (h : (pool m d).Nodup) (h0 : Present (m.page d 0))
    (hrun : deallocuvm k d oldsz newsz m = .ok (r, t)) :
    r = min newsz oldsz ∧ Within d (pgroundup newsz) (pgroundup oldsz) m t ∧
      ∀ j : Fin 1024, pgroundup newsz ≤ j.val → j.val < pgroundup oldsz →
        ¬ Present (t.page (first m d) j) := by
  unfold deallocuvm at hrun
  split at hrun
  · rename_i hge
    cases hrun
    have hmono := pgroundup_mono hge
    exact ⟨(min_eq_right hge).symm, .refl .., fun j hj hj' => absurd hj (by omega)⟩
  · rename_i hlt
    have hlt' : newsz ≤ oldsz := by omega
    have hmono := pgroundup_mono hlt'
    have htop := pgroundup_le hold
    obtain ⟨_, u, heach, hret⟩ := bind_eq_ok hrun
    cases hret
    have hsum : pgroundup newsz + (pgroundup oldsz - pgroundup newsz) = pgroundup oldsz := by omega
    obtain ⟨hw, habs⟩ := freePages_within (by omega) h h0 heach
    rw [hsum] at hw habs
    exact ⟨(min_eq_left hlt').symm, hw, habs⟩

theorem allocLoop_within {oldsz newsz n vp : Nat} {m t : Memory} {r : Bool} (hnew : newsz ≤ usertop)
    (hvp : vp + n = pgroundup newsz) (hold : pgroundup oldsz ≤ vp) (h : (pool m d).Nodup)
    (h0 : Present (m.page d 0)) (hrun : allocLoop k d oldsz newsz n vp m = .ok (r, t)) :
    Within d (pgroundup oldsz) (pgroundup newsz) m t ∧
      (r = true → (∀ j : Fin 1024, vp ≤ j.val → j.val < vp + n → Present (t.page (first m d) j)) ∧
        ∀ j : Fin 1024, j.val < vp → t.page (first m d) j = m.page (first m d) j) ∧
      (r = false → ∀ j : Fin 1024, pgroundup oldsz ≤ j.val → j.val < pgroundup newsz →
        ¬ Present (t.page (first m d) j)) := by
  induction n generalizing vp m with
  | zero =>
      cases hrun
      exact ⟨.refl .., fun _ => ⟨fun j hj hj' => absurd hj (by omega), fun _ _ => rfl⟩,
        fun hc => absurd hc.symm Bool.false_ne_true⟩
  | succ n ih =>
      have htop := pgroundup_le hnew
      rw [allocLoop] at hrun
      obtain ⟨a, u, hk, hrest⟩ := bind_eq_ok hrun
      rcases kalloc_cases hk with ⟨hfree, rfl, rfl⟩ | ⟨p, rest, hfree, rfl, rfl⟩
      · obtain ⟨_, u', hde, hret⟩ := bind_eq_ok hrest
        cases hret
        obtain ⟨_, hw, habs⟩ := deallocuvm_within hnew h h0 hde
        exact ⟨hw, fun hc => absurd hc Bool.false_ne_true, fun _ => habs⟩
      · obtain ⟨_, u, hfill, hrest⟩ := bind_eq_ok hrest
        have hu := assign_eq_ok hfill
        obtain ⟨b, u', hmap, hrest⟩ := bind_eq_ok hrest
        rw [hu] at hmap
        obtain ⟨_, hw, hpres⟩ := mapUser_within (by omega) h h0 hfree hmap
        obtain ⟨hw', htrue, hfalse⟩ :=
          ih (by omega) (by omega) (hw.nodup h) (hw.present h0) hrest
        rw [hw.first_eq] at htrue hfalse
        refine ⟨(hw.mono hold (by omega)).trans hw', ?_, hfalse⟩
        intro hr
        obtain ⟨hin, hout⟩ := htrue hr
        refine ⟨?_, ?_⟩
        · intro j hj hj'
          by_cases hja : j.val = vp
          · have hjp : j = ptx vp := Fin.ext (by rw [ptx_user (by omega)]; exact hja)
            rw [hout j (by omega), hjp]
            exact hpres
          · exact hin j (by omega) (by omega)
        · intro j hj
          rw [hout j (by omega), hw.words j (by omega)]

/-- `allocuvm` maps all pages of the new size, or gives back what it has taken. -/
theorem allocuvm_within {oldsz newsz r : Nat} {m t : Memory} (h : (pool m d).Nodup)
    (h0 : Present (m.page d 0)) (hold : oldsz ≤ usertop)
    (hrun : allocuvm k d oldsz newsz m = .ok (r, t)) :
    Within d (pgroundup oldsz) 160 m t ∧
      (r ≠ 0 → r = max newsz oldsz ∧ r ≤ usertop ∧
        Within d (pgroundup oldsz) (pgroundup r) m t ∧
        ∀ j : Fin 1024, pgroundup oldsz ≤ j.val → j.val < pgroundup r →
          Present (t.page (first m d) j)) ∧
      (r = 0 → (∀ j : Fin 1024, pgroundup oldsz ≤ j.val → j.val < 160 →
          ¬ Present (m.page (first m d) j)) → (↑t.freelist : Multiset Nat) = ↑m.freelist ∧
        ∀ j : Fin 1024, pgroundup oldsz ≤ j.val → j.val < 160 → ¬ Present (t.page (first m d) j)) := by
  unfold allocuvm at hrun
  split at hrun
  · cases hrun
    exact ⟨.refl .., fun hc => absurd rfl hc, fun _ habs => ⟨rfl, habs⟩⟩
  · rename_i hnew
    have hnew' : newsz ≤ usertop := by omega
    split at hrun
    · rename_i hlt
      cases hrun
      exact ⟨.refl .., fun _ => ⟨(max_eq_right (by omega)).symm, hold, .refl ..,
        fun j hj hj' => absurd hj (by omega)⟩, fun _ habs => ⟨rfl, habs⟩⟩
    · rename_i hge
      have hge' : oldsz ≤ newsz := by omega
      have hmono := pgroundup_mono hge'
      have htop := pgroundup_le hnew'
      obtain ⟨b, u, hloop, hret⟩ := bind_eq_ok hrun
      obtain ⟨hw, htrue, hfalse⟩ := allocLoop_within hnew' (by omega) le_rfl h h0 hloop
      cases b with
      | true =>
          cases hret
          obtain ⟨hin, _⟩ := htrue rfl
          refine ⟨hw.mono le_rfl htop, fun _ => ⟨(max_eq_left hge').symm, hnew', hw, ?_⟩, ?_⟩
          · intro j hj hj'
            exact hin j hj (by omega)
          · -- A new size of 0 maps nothing.
            rintro rfl habs
            have hzero : pgroundup 0 = 0 := rfl
            refine ⟨hw.free_eq (fun j _ hj => absurd hj (by omega)) fun j _ hj => absurd hj (by omega), ?_⟩
            intro j hj hj'
            rw [hw.words j (by omega)]
            exact habs j hj hj'
      | false =>
          cases hret
          refine ⟨hw.mono le_rfl htop, fun hc => absurd rfl hc, fun _ habs => ?_⟩
          refine ⟨hw.free_eq (fun j hj hj' => habs j hj (by omega)) (hfalse rfl), ?_⟩
          intro j hj hj'
          by_cases hlt : j.val < pgroundup newsz
          · exact hfalse rfl j hj hlt
          · rw [hw.words j (by omega)]
            exact habs j hj hj'

end Sizes

/-! ## freevm -/

section Freevm

variable {k : Link} {d : Nat}

theorem freeTables_free {is : List (Fin 1024)} {m t : Memory} {r : Unit}
    (hne : ∀ i ∈ is, Present (m.page d i) → pteAddr (m.page d i) ≠ d)
    (hrun : each (freeTable k d) is m = .ok (r, t)) :
    t.page d = m.page d ∧
      (↑t.freelist : Multiset Nat) = (is.map fun i => target (m.page d i)).sum + ↑m.freelist ∧
      ∀ p, p ∉ (is.map fun i => target (m.page d i)).sum → t.page p = m.page p := by
  induction is generalizing m with
  | nil =>
      cases hrun
      exact ⟨rfl, by simp, fun _ _ => rfl⟩
  | cons i is ih =>
      rw [each] at hrun
      obtain ⟨_, u, hone, hrest⟩ := bind_eq_ok hrun
      have hstep : u.page d = m.page d ∧ (↑u.freelist : Multiset Nat) =
          target (m.page d i) + ↑m.freelist ∧
          ∀ p, p ∉ target (m.page d i) → u.page p = m.page p := by
        obtain ⟨w, u', hw, hone⟩ := bind_eq_ok hone
        cases hw
        split at hone
        · rename_i hp
          have hu := kfree_eq hone
          have hpd := hne i List.mem_cons_self hp
          rw [target_of_present hp, hu]
          refine ⟨setPage_ne hpd.symm, ?_, ?_⟩
          · rw [setPage_freelist, ← Multiset.cons_coe, ← Multiset.singleton_add]
          · intro p hpp
            exact setPage_ne fun heq => hpp (Multiset.mem_singleton.mpr heq)
        · rename_i hp
          cases hone
          rw [target_of_absent hp, zero_add]
          exact ⟨rfl, rfl, fun _ _ => rfl⟩
      obtain ⟨hdir, hfree, hframe⟩ := hstep
      obtain ⟨hdir', hfree', hframe'⟩ := ih (m := u)
        (fun i' hi' => by rw [hdir]; exact hne i' (List.mem_cons_of_mem _ hi')) hrest
      rw [hdir] at hfree' hframe'
      refine ⟨hdir'.trans hdir, ?_, ?_⟩
      · rw [hfree', hfree, List.map_cons, List.sum_cons]
        abel
      · intro p hp
        rw [List.map_cons, List.sum_cons, Multiset.mem_add, not_or] at hp
        rw [hframe' p hp.2, hframe p hp.1]

theorem users_of_absent {m : Memory}
    (habs : ∀ j : Fin 1024, j.val < 160 → ¬ Present (m.page (first m d) j)) : users m d = 0 := by
  unfold users
  split
  · refine Multiset.eq_zero_of_forall_notMem ?_
    intro p hp
    obtain ⟨j, hj, hpres, _⟩ := mem_userTargets.mp hp
    exact habs j hj hpres
  · rfl

/-- `freevm` gives back all pages of a directory. -/
theorem freevm_free {m t : Memory} {r : Unit} (h : (pool m d).Nodup) (h0 : Present (m.page d 0))
    (hrun : freevm k d m = .ok (r, t)) :
    (↑t.freelist : Multiset Nat) = pool m d ∧ ∀ p, p ∉ pool m d → t.page p = m.page p := by
  obtain ⟨_, u, hde, hrest⟩ := bind_eq_ok hrun
  obtain ⟨_, u', htabs, hlast⟩ := bind_eq_ok hrest
  obtain ⟨_, hw, habs⟩ := deallocuvm_within le_rfl h h0 hde
  have hnd := owned_nodup (hw.nodup h)
  obtain ⟨hdir, hfree, hframe⟩ := freeTables_free (fun i _ hi => table_ne_dir hnd hi) htabs
  have hsum : ((List.finRange 1024).map fun i => target (u.page d i)).sum = tables u d := by
    unfold tables
    rw [Fin.sum_univ_def]
  have husers : users u d = 0 := by
    refine users_of_absent fun j hj => ?_
    rw [hw.first_eq]
    exact habs j (by simp [pgroundup]) (by simpa [pgroundup, usertop] using hj)
  rw [hsum] at hfree hframe
  have ht := kfree_eq hlast
  have hpool : pool u d = {d} + tables u d + ↑u.freelist := by
    rw [pool, owned, husers]
    abel
  refine ⟨?_, ?_⟩
  · rw [← hw.moved.pool, hpool, ht, setPage_freelist, ← Multiset.cons_coe, ← Multiset.singleton_add,
      hfree]
    abel
  · intro p hp
    have hp' : p ∉ pool u d := by rw [hw.moved.pool]; exact hp
    have hpd : p ≠ d := by
      rintro rfl
      exact hp (dir_mem_pool m p)
    have hpt : p ∉ tables u d := fun hc => hp' (by simp [pool, owned, hc])
    have hframe₁ : t.page p = u'.page p := by
      rw [ht]
      exact setPage_ne hpd
    rw [hframe₁, hframe p hpt, hw.moved.frame p hp]

end Freevm

end Vm
end Xv6
end LfsXv6
