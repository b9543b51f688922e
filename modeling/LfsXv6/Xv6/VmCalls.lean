import LfsXv6.Xv6.VmPages

/-!
# VmCalls — page accounting of `fork`, `exec` and `sbrk`

`setupkvm` needs 13 pages.  Where it gets them, everything that is built under the new directory can be
taken back by `freevm`; where it runs out of them, it forgets those that it has taken.
-/

namespace LfsXv6
namespace Xv6
namespace Vm

open Lib Prog

/-! ## setupkvm -/

/-- The entries of a directory that the kernel's mappings use. -/
def kernelTables : Finset (Fin 1024) := Finset.univ.filter fun i => i.val ≤ 3 ∨ 1016 ≤ i.val

theorem mem_kernelTables {i : Fin 1024} : i ∈ kernelTables ↔ i.val ≤ 3 ∨ 1016 ≤ i.val := by
  simp [kernelTables]

theorem card_kernelTables : kernelTables.card = 12 := by decide +kernel

/-- A word that may stand in a page table of a directory without user memory. -/
def KernelWord (i j : Fin 1024) (w : Nat) : Prop := ¬ User w ∧ (i = 0 → j.val < 160 → ¬ Present w)

theorem kernelWord_zero (i j : Fin 1024) : KernelWord i j 0 := ⟨by decide, fun _ _ => by decide⟩

theorem kernelWord_pte {i j : Fin 1024} {p perm : Nat} (hperm : perm = 0 ∨ perm = 2)
    (hj : i ≠ 0 ∨ 160 ≤ j.val) : KernelWord i j (pte p perm) := by
  refine ⟨?_, ?_⟩
  · simp only [User, pte]
    omega
  · intro hi hlt
    rcases hj with hne | hge
    · exact absurd hi hne
    · omega

/-- A directory that `setupkvm` is working on. -/
structure Fresh (m : Memory) (d : Nat) : Prop where
  nodup : (pool m d).Nodup
  word : ∀ i j, Present (m.page d i) → KernelWord i j (m.page (pteAddr (m.page d i)) j)
  kernel : ∀ i, Present (m.page d i) → i ∈ kernelTables

namespace Fresh

variable {m : Memory} {d t p perm : Nat} {i j : Fin 1024} {rest : List Nat}

theorem setWord (h : Fresh m d) (hi : Present (m.page d i)) (hperm : perm = 0 ∨ perm = 2)
    (hj : i ≠ 0 ∨ 160 ≤ j.val) : Fresh (m.setWord (pteAddr (m.page d i)) j (pte p perm)) d := by
  have hnd := owned_nodup h.nodup
  have hdir : (m.setWord (pteAddr (m.page d i)) j (pte p perm)).page d = m.page d :=
    setWord_ne (table_ne_dir hnd hi).symm
  refine ⟨?_, ?_, ?_⟩
  · rw [(kernelWord_moved (pte p perm) h.nodup hi hj).pool]
    exact h.nodup
  · intro i' j' hi'
    rw [hdir] at hi' ⊢
    by_cases heq : pteAddr (m.page d i') = pteAddr (m.page d i)
    · have hii : i' = i := table_inj hnd hi' hi heq
      subst hii
      rw [setWord_self]
      by_cases hjj : j' = j
      · subst hjj
        rw [Function.update_self]
        exact kernelWord_pte hperm hj
      · rw [Function.update_of_ne hjj]
        exact h.word i' j' hi'
    · rw [setWord_ne heq]
      exact h.word i' j' hi'
  · intro i' hi'
    rw [hdir] at hi'
    exact h.kernel i' hi'

theorem newTable (h : Fresh m d) (hfree : m.freelist = t :: rest) (habs : ¬ Present (m.page d i))
    (hi : i ∈ kernelTables) : Fresh (newTable m d t i rest) d := by
  have hfresh : t ∉ owned m d := free_not_owned h.nodup (by rw [hfree]; exact List.mem_cons_self)
  have hne : t ≠ d := by
    rintro rfl
    exact hfresh (by simp [owned])
  have hdir : (Vm.newTable m d t i rest).page d = Function.update (m.page d) i (pte t 6) :=
    newTable_dir hne.symm
  refine ⟨?_, ?_, ?_⟩
  · rw [(newTable_moved h.nodup hfree habs).pool]
    exact h.nodup
  · intro i' j' hi'
    rw [hdir] at hi' ⊢
    by_cases hii : i' = i
    · subst hii
      rw [Function.update_self, pteAddr_pte (by decide), newTable_table hne]
      exact kernelWord_zero i' j'
    · rw [Function.update_of_ne hii] at hi' ⊢
      have hmem : pteAddr (m.page d i') ∈ owned m d := by
        simp only [owned, Multiset.mem_add]
        exact .inl (.inr (mem_tables.mpr ⟨i', hi', rfl⟩))
      have hother : pteAddr (m.page d i') ≠ t := by
        intro heq
        rw [heq] at hmem
        exact hfresh hmem
      rw [newTable_ne (table_ne_dir (owned_nodup h.nodup) hi') hother]
      exact h.word i' j' hi'
  · intro i' hi'
    rw [hdir] at hi'
    by_cases hii : i' = i
    · rw [hii]
      exact hi
    · rw [Function.update_of_ne hii] at hi'
      exact h.kernel i' hi'

/-- Where an entry of the kernel's is missing, the directory has no more than 12 pages. -/
theorem card_owned_le (h : Fresh m d) (hi : i ∈ kernelTables) (habs : ¬ Present (m.page d i)) :
    (owned m d).card ≤ 12 := by
  have husers : users m d = 0 := by
    unfold users
    split
    · rename_i h0
      refine Multiset.eq_zero_of_forall_notMem ?_
      intro p hp
      obtain ⟨j, hj, hpres, _⟩ := mem_userTargets.mp hp
      exact (h.word 0 j h0).2 rfl hj hpres
    · rfl
  have htables : (tables m d).card ≤ (kernelTables.erase i).card := by
    unfold tables
    rw [Multiset.card_sum, Finset.card_eq_sum_ones, ← Finset.sum_filter_add_sum_filter_not Finset.univ
      fun i' => i' ∈ kernelTables.erase i]
    have hout : ∑ i' ∈ Finset.univ.filter (fun i' => i' ∉ kernelTables.erase i),
        (target (m.page d i')).card = 0 := by
      refine Finset.sum_eq_zero ?_
      intro i' hi'
      have hnot : i' ∉ kernelTables.erase i := (Finset.mem_filter.mp hi').2
      have habs' : ¬ Present (m.page d i') := by
        intro hp
        refine hnot (Finset.mem_erase.mpr ⟨?_, h.kernel i' hp⟩)
        rintro rfl
        exact habs hp
      rw [target_of_absent habs', Multiset.card_zero]
    rw [hout, add_zero, Finset.filter_univ_mem]
    refine Finset.sum_le_sum ?_
    intro i' _
    unfold target
    split
    · simp
    · simp
  rw [Finset.card_erase_of_mem hi, card_kernelTables] at htables
  rw [owned, husers, add_zero, Multiset.card_add, Multiset.card_singleton]
  omega

end Fresh

section Setupkvm

variable {k : Link} {m t : Memory} {d vp p perm : Nat}

/-- A step of `setupkvm` that went well: pages have moved, and no entry has been lost. -/
structure Mapped (d : Nat) (m t : Memory) : Prop where
  fresh : Fresh t d
  moved : Moved d m t
  kept : ∀ i, Present (m.page d i) → Present (t.page d i)

theorem Mapped.trans {m' : Memory} (h : Mapped d m m') (h' : Mapped d m' t) : Mapped d m t :=
  ⟨h'.fresh, h.moved.trans h'.moved, fun i hi => h'.kept i (h.kept i hi)⟩

/-- `setupkvm` is stuck: nothing is free, and a page table is missing. -/
def Stuck (d : Nat) (m t : Memory) : Prop :=
  Moved d m t ∧ Fresh t d ∧ t.freelist = [] ∧ ∃ i ∈ kernelTables, ¬ Present (t.page d i)

theorem mapPage_mapped {r : Bool} (h : Fresh m d) (hp : Present (m.page d (pdx vp)))
    (hlo : 160 ≤ vp) (hhi : vp < 2 ^ 20) (hperm : perm = 0 ∨ perm = 2)
    (hrun : mapPage d vp p perm m = .ok (r, t)) :
    r = true ∧ Mapped d m t ∧ Present (t.page d (pdx vp)) := by
  obtain ⟨hr, _, ht⟩ := mapPage_found hp hrun
  have hj : pdx vp ≠ 0 ∨ 160 ≤ (ptx vp).val := by
    by_cases h0 : vp / 1024 % 1024 = 0
    · right
      show 160 ≤ vp % 1024
      omega
    · exact .inl fun hc => h0 (congrArg Fin.val hc)
  have hdir : t.page d = m.page d := by
    rw [ht]
    exact setWord_ne (table_ne_dir (owned_nodup h.nodup) hp).symm
  refine ⟨hr, ⟨?_, ?_, ?_⟩, ?_⟩
  · rw [ht]
    exact h.setWord hp hperm hj
  · rw [ht]
    exact kernelWord_moved (pte p perm) h.nodup hp hj
  · intro i hi
    rw [hdir]
    exact hi
  · rw [hdir]
    exact hp

theorem mapPage_kernel {r : Bool} (h : Fresh m d) (hlo : 160 ≤ vp) (hhi : vp < 2 ^ 20)
    (hin : pdx vp ∈ kernelTables) (hperm : perm = 0 ∨ perm = 2)
    (hrun : mapPage d vp p perm m = .ok (r, t)) :
    (r = true → Mapped d m t ∧ Present (t.page d (pdx vp))) ∧ (r = false → Stuck d m t) := by
  by_cases hp : Present (m.page d (pdx vp))
  · obtain ⟨rfl, hmapped, hpres⟩ := mapPage_mapped h hp hlo hhi hperm hrun
    exact ⟨fun _ => ⟨hmapped, hpres⟩, fun hc => absurd hc.symm Bool.false_ne_true⟩
  · obtain ⟨a, u, hwalk, hrest⟩ := bind_eq_ok hrun
    rcases walkpgdir_create hp hwalk with ⟨hfree, rfl, rfl⟩ | ⟨q, rest, hfree, rfl, rfl⟩
    · cases hrest
      exact ⟨fun hc => absurd hc Bool.false_ne_true, fun _ => ⟨.refl .., h, hfree, pdx vp, hin, hp⟩⟩
    · -- With the new page table the rest is the call in which it is there.
      have hfresh : q ∉ owned m d := free_not_owned h.nodup (by rw [hfree]; exact List.mem_cons_self)
      have hqd : q ≠ d := by
        rintro rfl
        exact hfresh (by simp [owned])
      have hdir : (newTable m d q (pdx vp) rest).page d =
          Function.update (m.page d) (pdx vp) (pte q 6) := newTable_dir hqd.symm
      have hentry : (newTable m d q (pdx vp) rest).page d (pdx vp) = pte q 6 := by
        rw [hdir, Function.update_self]
      have hpres : Present ((newTable m d q (pdx vp) rest).page d (pdx vp)) := by
        rw [hentry]
        exact pte_present rfl
      have hagain : mapPage d vp p perm (newTable m d q (pdx vp) rest) = .ok (r, t) := by
        rw [mapPage, bind_of_ok (walkpgdir_found hpres), hentry, pteAddr_pte (by decide)]
        exact hrest
      have hstep : Mapped d m (newTable m d q (pdx vp) rest) := by
        refine ⟨h.newTable hfree hp hin, newTable_moved h.nodup hfree hp, ?_⟩
        intro i hi
        rw [hdir]
        by_cases hii : i = pdx vp
        · rw [hii, Function.update_self]
          exact pte_present rfl
        · rw [Function.update_of_ne hii]
          exact hi
      obtain ⟨rfl, hmapped, hpres'⟩ := mapPage_mapped hstep.fresh hpres hlo hhi hperm hagain
      exact ⟨fun _ => ⟨hstep.trans hmapped, hpres'⟩, fun hc => absurd hc.symm Bool.false_ne_true⟩

/-- Pages that `setupkvm` maps: `n` more behind the first one. -/
structure Region (vp n perm : Nat) : Prop where
  low : 160 ≤ vp
  high : vp + n < 2 ^ 20
  kernel : ∀ v, vp ≤ v → v ≤ vp + n → pdx v ∈ kernelTables
  perm : perm = 0 ∨ perm = 2

theorem mapLoop_kernel {n : Nat} {r : Bool} (h : Fresh m d) (hreg : Region vp n perm)
    (hrun : mapLoop d perm n vp p m = .ok (r, t)) :
    (r = true → Mapped d m t ∧ ∀ v, vp ≤ v → v ≤ vp + n → Present (t.page d (pdx v))) ∧
      (r = false → Stuck d m t) := by
  induction n generalizing vp p m with
  | zero =>
      rw [mapLoop] at hrun
      obtain ⟨htrue, hfalse⟩ := mapPage_kernel h hreg.low (by have := hreg.high; omega)
        (hreg.kernel vp le_rfl le_rfl) hreg.perm hrun
      refine ⟨fun hr => ⟨(htrue hr).1, ?_⟩, hfalse⟩
      intro v hlo hhi
      obtain rfl : v = vp := by omega
      exact (htrue hr).2
  | succ n ih =>
      rw [mapLoop] at hrun
      obtain ⟨b, u, hone, hrest⟩ := bind_eq_ok hrun
      have hhigh := hreg.high
      obtain ⟨htrue, hfalse⟩ := mapPage_kernel h hreg.low (by omega)
        (hreg.kernel vp le_rfl (by omega)) hreg.perm hone
      cases b with
      | false =>
          cases hrest
          exact ⟨fun hc => absurd hc Bool.false_ne_true, fun _ => hfalse rfl⟩
      | true =>
          obtain ⟨hmapped, hpres⟩ := htrue rfl
          have hreg' : Region (vp + 1) n perm :=
            ⟨by have := hreg.low; omega, by omega, fun v hv hv' => hreg.kernel v (by omega) (by omega),
              hreg.perm⟩
          obtain ⟨htrue', hfalse'⟩ := ih hmapped.fresh hreg' hrest
          refine ⟨?_, ?_⟩
          · intro hr
            obtain ⟨hmapped', hrest'⟩ := htrue' hr
            refine ⟨hmapped.trans hmapped', ?_⟩
            intro v hlo hhi
            rcases Nat.eq_or_lt_of_le hlo with rfl | hlt
            · exact hmapped'.kept _ hpres
            · exact hrest' v hlt (by omega)
          · intro hr
            obtain ⟨hmoved, hstuck⟩ := hfalse' hr
            exact ⟨hmapped.moved.trans hmoved, hstuck⟩

/-- The last page of an entry of `kmap`. -/
def lastPage (r : Nat × Nat × Nat) : Nat :=
  r.1 / pgsize + ((r.1 + usub r.2.1 r.1 - 1) % 2 ^ 32 / pgsize - r.1 / pgsize)

/-- The region of an entry of `kmap`. -/
def KernelRegion (r : Nat × Nat × Nat) : Prop :=
  Region (r.1 / pgsize) ((r.1 + usub r.2.1 r.1 - 1) % 2 ^ 32 / pgsize - r.1 / pgsize) r.2.2

theorem mapKernel_kernel {rs : List (Nat × Nat × Nat)} {r : Bool} (h : Fresh m d)
    (hrs : ∀ x ∈ rs, KernelRegion x) (hrun : mapKernel d rs m = .ok (r, t)) :
    (r = true → Mapped d m t ∧
        ∀ x ∈ rs, ∀ v, x.1 / pgsize ≤ v → v ≤ lastPage x → Present (t.page d (pdx v))) ∧
      (r = false → Stuck d m t) := by
  induction rs generalizing m with
  | nil =>
      cases hrun
      exact ⟨fun _ => ⟨⟨h, .refl .., fun _ hi => hi⟩, by simp⟩,
        fun hc => absurd hc.symm Bool.false_ne_true⟩
  | cons x rs ih =>
      obtain ⟨lo, hi, perm⟩ := x
      rw [mapKernel] at hrun
      obtain ⟨b, u, hone, hrest⟩ := bind_eq_ok hrun
      have hreg := hrs (lo, hi, perm) List.mem_cons_self
      rw [KernelRegion] at hreg
      rw [mappages] at hone
      obtain ⟨htrue, hfalse⟩ := mapLoop_kernel h hreg hone
      cases b with
      | false =>
          cases hrest
          exact ⟨fun hc => absurd hc Bool.false_ne_true, fun _ => hfalse rfl⟩
      | true =>
          obtain ⟨hmapped, hpres⟩ := htrue rfl
          obtain ⟨htrue', hfalse'⟩ :=
            ih hmapped.fresh (fun y hy => hrs y (List.mem_cons_of_mem _ hy)) hrest
          refine ⟨?_, ?_⟩
          · intro hr
            obtain ⟨hmapped', hall⟩ := htrue' hr
            refine ⟨hmapped.trans hmapped', ?_⟩
            intro y hy v hlo hhi
            rcases List.mem_cons.mp hy with rfl | hy
            · exact hmapped'.kept _ (hpres v hlo hhi)
            · exact hall y hy v hlo hhi
          · intro hr
            obtain ⟨hmoved, hstuck⟩ := hfalse' hr
            exact ⟨hmapped.moved.trans hmoved, hstuck⟩

theorem region_low {vp n perm : Nat} (hlo : 160 ≤ vp) (hhi : vp + n < 4096)
    (hperm : perm = 0 ∨ perm = 2) : Region vp n perm := by
  refine ⟨hlo, by omega, ?_, hperm⟩
  intro v _ hv
  rw [mem_kernelTables]
  left
  show v / 1024 % 1024 ≤ 3
  omega

theorem kmap_regions (k : Link) : ∀ x ∈ kmap k, KernelRegion x := by
  have htext := k.text
  have hbelow := k.below
  intro x hx
  simp only [kmap, List.mem_cons, List.not_mem_nil, or_false] at hx
  rcases hx with rfl | rfl | rfl | rfl
  · refine region_low ?_ ?_ (.inr rfl)
    · simp only [pgsize, usertop]
      omega
    · simp only [usub, pgsize, usertop]
      omega
  · refine region_low ?_ ?_ (.inl rfl)
    · simp only [pgsize]
      omega
    · simp only [usub, pgsize]
      omega
  · refine region_low ?_ ?_ (.inr rfl)
    · simp only [pgsize]
      omega
    · simp only [usub, pgsize, phystop]
      omega
  · refine ⟨?_, ?_, ?_, .inr rfl⟩
    · simp only [pgsize]
      omega
    · simp only [usub, pgsize]
      omega
    · intro v hlo hhi
      rw [mem_kernelTables]
      right
      show 1016 ≤ v / 1024 % 1024
      simp only [usub, pgsize] at hlo hhi
      omega

/-- Every page table of the kernel's is needed for an entry of `kmap`. -/
theorem kmap_tables (k : Link) {i : Fin 1024} (hi : i ∈ kernelTables) :
    ∃ x ∈ kmap k, ∃ v, x.1 / pgsize ≤ v ∧ v ≤ lastPage x ∧ pdx v = i := by
  have htext := k.text
  have hbelow := k.below
  rw [mem_kernelTables] at hi
  rcases hi with hlow | hhigh
  · by_cases h0 : i.val = 0
    · refine ⟨(usertop, 0x100000, 2), by simp [kmap], 160, ?_, ?_, ?_⟩
      · simp only [pgsize, usertop]
        omega
      · simp only [lastPage, usub, pgsize, usertop]
        omega
      · exact Fin.ext (by show 160 / 1024 % 1024 = i.val; omega)
    · by_cases hdata : 1024 * i.val < k.data
      · refine ⟨(0x100000, pgsize * k.data, 0), by simp [kmap], 1024 * i.val, ?_, ?_, ?_⟩
        · simp only [pgsize]
          omega
        · simp only [lastPage, usub, pgsize]
          omega
        · exact Fin.ext (by show 1024 * i.val / 1024 % 1024 = i.val; omega)
      · refine ⟨(pgsize * k.data, phystop, 2), by simp [kmap], 1024 * i.val, ?_, ?_, ?_⟩
        · simp only [pgsize]
          omega
        · simp only [lastPage, usub, pgsize, phystop]
          omega
        · exact Fin.ext (by show 1024 * i.val / 1024 % 1024 = i.val; omega)
  · have hlt := i.isLt
    refine ⟨(0xFE000000, 0, 2), by simp [kmap], 1024 * i.val, ?_, ?_, ?_⟩
    · simp only [pgsize]
      omega
    · simp only [lastPage, usub, pgsize]
      omega
    · exact Fin.ext (by show 1024 * i.val / 1024 % 1024 = i.val; omega)

/-- A directory in which `setupkvm` has mapped the kernel and nothing else. -/
structure Blank (m : Memory) (d : Nat) : Prop where
  nodup : (pool m d).Nodup
  dir : Present (m.page d 0)
  table : ∀ i, Present (m.page d i) ↔ i ∈ kernelTables
  word : ∀ i j, Present (m.page d i) → KernelWord i j (m.page (pteAddr (m.page d i)) j)

/-- The directory before the first mapping. -/
theorem fresh_zero {rest : List Nat} (hfree : m.freelist.Nodup) (hcons : m.freelist = d :: rest) :
    let u := ({ m with freelist := rest } : Memory).setPage d fun _ => 0
    pool u d = ↑m.freelist ∧ Fresh u d ∧ ∀ i, ¬ Present (u.page d i) := by
  intro u
  have hdir : u.page d = fun _ => 0 := setPage_self
  have habs : ∀ i, ¬ Present (u.page d i) := by
    intro i
    rw [hdir]
    exact Nat.zero_ne_one
  have howned : owned u d = {d} := by
    have htables : tables u d = 0 := by
      refine Multiset.eq_zero_of_forall_notMem ?_
      intro p hp
      obtain ⟨i, hi, _⟩ := mem_tables.mp hp
      exact habs i hi
    rw [owned, htables, users, if_neg (habs 0)]
    rfl
  have hpool : pool u d = ↑m.freelist := by
    have hlist : u.freelist = rest := rfl
    rw [pool, howned, hlist, hcons, ← Multiset.cons_coe, ← Multiset.singleton_add]
    abel
  refine ⟨hpool, ⟨?_, fun i _ hi => absurd hi (habs i), fun i hi => absurd hi (habs i)⟩, habs⟩
  rw [hpool]
  exact hfree

theorem setupkvm_spec {r : Option Nat} (hfree : m.freelist.Nodup)
    (hrun : setupkvm k m = .ok (r, t)) :
    (∀ p, p ∉ m.freelist → t.page p = m.page p) ∧
      (∀ d, r = some d → pool t d = ↑m.freelist ∧ Blank t d) ∧
      (r = none → m.freelist = [] ∧ t = m ∨ 0 < m.freelist.length ∧ m.freelist.length ≤ 12) := by
  rw [setupkvm] at hrun
  obtain ⟨a, u, hk, hrest⟩ := bind_eq_ok hrun
  rcases kalloc_cases hk with ⟨hnil, rfl, rfl⟩ | ⟨d, rest, hcons, rfl, rfl⟩
  · cases hrest
    exact ⟨fun _ _ => rfl, fun d hd => by simp at hd, fun _ => .inl ⟨hnil, rfl⟩⟩
  · obtain ⟨_, u, hfill, hrest⟩ := bind_eq_ok hrest
    have hu : u = ({ m with freelist := rest } : Memory).setPage d fun _ => 0 := assign_eq_ok hfill
    obtain ⟨b, u', hmap, hret⟩ := bind_eq_ok hrest
    obtain ⟨hpool, hfresh, -⟩ := fresh_zero hfree hcons
    rw [← hu] at hpool hfresh
    obtain ⟨htrue, hfalse⟩ := mapKernel_kernel hfresh (kmap_regions k) hmap
    have hframe : Moved d u u' → ∀ p, p ∉ m.freelist → u'.page p = m.page p := by
      intro hmoved p hp
      rw [hmoved.frame p (by rw [hpool]; simpa using hp), hu]
      refine setPage_ne ?_
      rintro rfl
      exact hp (by rw [hcons]; exact List.mem_cons_self)
    cases b with
    | true =>
        cases hret
        obtain ⟨hmapped, hall⟩ := htrue rfl
        refine ⟨hframe hmapped.moved, ?_, fun hc => by simp at hc⟩
        intro d' hd'
        cases hd'
        have htable : ∀ i ∈ kernelTables, Present (t.page d i) := by
          intro i hi
          obtain ⟨x, hx, v, hlo, hhi, rfl⟩ := kmap_tables k hi
          exact hall x hx v hlo hhi
        exact ⟨hmapped.moved.pool.trans hpool, hmapped.fresh.nodup,
          htable 0 (mem_kernelTables.mpr (.inl (by decide))),
          fun i => ⟨hmapped.fresh.kernel i, htable i⟩, hmapped.fresh.word⟩
    | false =>
        cases hret
        obtain ⟨hmoved, hfr, hnil, i, hi, hmiss⟩ := hfalse rfl
        refine ⟨hframe hmoved, fun d' hd' => by simp at hd', fun _ => .inr ⟨?_, ?_⟩⟩
        · rw [hcons]
          exact Nat.succ_pos _
        · have hcard := hfr.card_owned_le hi hmiss
          have hsame : owned t d = ↑m.freelist := by
            rw [← hpool, ← hmoved.pool, pool, hnil]
            simp
          rw [hsame, Multiset.coe_card] at hcard
          exact hcard

end Setupkvm

/-! ## Filling an address space -/

set_option maxRecDepth 2048 in
theorem card_tables {m : Memory} {d : Nat} (h : ∀ i, Present (m.page d i) ↔ i ∈ kernelTables) : (tables m d).card = 12 := by
  have hone : ∀ i, (target (m.page d i)).card = if i ∈ kernelTables then 1 else 0 := by
    intro i
    by_cases hi : i ∈ kernelTables
    · rw [if_pos hi, target_of_present ((h i).mpr hi), Multiset.card_singleton]
    · rw [if_neg hi, target_of_absent fun hp => hi ((h i).mp hp), Multiset.card_zero]
  unfold tables
  rw [Multiset.card_sum, Finset.sum_congr rfl fun i _ => hone i, ← Finset.card_filter,
    Finset.filter_univ_mem, card_kernelTables]

/-- An address space in which the first `n` user pages are mapped. -/
structure Space (m : Memory) (d n : Nat) : Prop where
  nodup : (pool m d).Nodup
  dir : Present (m.page d 0)
  kernel : ∀ i j : Fin 1024, Present (m.page d i) → i ≠ 0 ∨ 160 ≤ j.val →
    ¬ User (m.page (pteAddr (m.page d i)) j)
  user : ∀ j : Fin 1024, j.val < 160 → (Present (m.page (first m d) j) ↔ j.val < n)

theorem Blank.space {m : Memory} {d : Nat} (h : Blank m d) : Space m d 0 := by
  refine ⟨h.nodup, h.dir, fun i j hi _ => (h.word i j hi).1, ?_⟩
  intro j hj
  exact ⟨fun hp => absurd hp ((h.word 0 j h.dir).2 rfl hj), fun hc => absurd hc (Nat.not_lt_zero _)⟩

/-- A segment that does not wrap around. -/
def Proghdr.Contained (ph : Proghdr) : Prop :=
  ph.type = elfProgLoad → ph.va.toNat + ph.memsz.toNat < 2 ^ 32

/-- The turns of `loaduvm` from `i` on, with `n` pages mapped: those that it gets to store bytes in these pages
or store none, and `rest` holds where it gets to the end. -/
def Stays (readi : Readi) (n addr offset sz : Nat) (rest : Prop) : Nat → Nat → Prop
  | 0, _ => rest
  | turns + 1, i =>
      ((readi ((offset + i) % 2 ^ 32) (min (sz - i) pgsize)).2 = [] ∨ (addr + i) % 2 ^ 32 / pgsize < n) ∧
        ((readi ((offset + i) % 2 ^ 32) (min (sz - i) pgsize)).1 = min (sz - i) pgsize →
          Stays readi n addr offset sz rest turns (i + pgsize))

/-- The size of a process with one more segment. -/
def Proghdr.reach (ph : Proghdr) (sz : Nat) : Nat := max (ph.va + ph.memsz).toNat sz

/-- All segments that `exec` gets to load, with memory for `room` user pages, are loaded into pages that have
been mapped. -/
def AllStay (readi : Readi) (room : Nat) : Nat → List (Option Proghdr) → Prop
  | _, [] => True
  | _, none :: _ => True
  | sz, some ph :: rest =>
      (ph.type ≠ elfProgLoad → AllStay readi room sz rest) ∧
        (ph.type = elfProgLoad → ph.filesz ≤ ph.memsz → (ph.va + ph.memsz).toNat ≤ usertop →
          ph.reach sz ≠ 0 → pgroundup (ph.reach sz) ≤ room → ph.va.toNat % pgsize = 0 →
          Stays readi (pgroundup (ph.reach sz)) ph.va.toNat ph.offset.toNat ph.filesz.toNat
            (AllStay readi room (ph.reach sz) rest) (pgroundup ph.filesz.toNat) 0)

section Stay

variable {readi : Readi} {n addr offset sz room : Nat} {rest : Prop}

/-- A segment that lies in the pages that are mapped. -/
theorem stays_of_fit (hfit : addr + sz ≤ 4096 * n) (hrest : rest) (turns i : Nat)
    (hturns : i + 4096 * turns = 4096 * pgroundup sz) : Stays readi n addr offset sz rest turns i := by
  induction turns generalizing i with
  | zero => exact hrest
  | succ turns ih =>
      refine ⟨.inr ?_, fun _ => ih _ (by simp only [pgsize]; omega)⟩
      simp only [pgroundup, pgsize] at hturns ⊢
      omega

/-- Segments that do not wrap around are loaded where they should be. -/
theorem allStay_of_contained {phdrs : List (Option Proghdr)} (hin : ∀ ph, some ph ∈ phdrs → ph.Contained)
    (hsz : sz ≤ usertop) : AllStay readi room sz phdrs := by
  induction phdrs generalizing sz with
  | nil => trivial
  | cons x phdrs ih =>
      have hin' : ∀ ph, some ph ∈ phdrs → ph.Contained := fun ph hph => hin ph (List.mem_cons_of_mem _ hph)
      cases x with
      | none => trivial
      | some ph =>
          refine ⟨fun _ => ih hin' hsz, fun htype hmem htop _ _ _ => ?_⟩
          have htop' : ph.reach sz ≤ usertop := max_le htop hsz
          refine stays_of_fit ?_ (ih hin' htop') _ _ (Nat.zero_add _)
          -- The file's part of the segment lies in the pages that are mapped.
          have hfile : ph.filesz.toNat ≤ ph.memsz.toNat := UInt32.le_iff_toNat_le.mp hmem
          have hsum : (ph.va + ph.memsz).toNat = ph.va.toNat + ph.memsz.toNat := by
            rw [UInt32.toNat_add]
            exact Nat.mod_eq_of_lt (hin ph List.mem_cons_self htype)
          have hle : (ph.va + ph.memsz).toNat ≤ ph.reach sz := le_max_left _ _
          simp only [pgroundup]
          omega

theorem poke_nil (w : Words) : poke w 0 [] = w := by
  funext j
  exact if_pos (Nat.zero_le _)

end Stay

set_option maxRecDepth 2048 in
theorem card_userTargets {n : Nat} {w : Words} (hn : n ≤ 160)
    (h : ∀ j : Fin 1024, j.val < 160 → (Present (w j) ↔ j.val < n)) : (userTargets w).card = n := by
  have hone : ∀ j : Fin 1024, (if j.val < 160 then target (w j) else 0).card =
      if j.val < n then 1 else 0 := by
    intro j
    by_cases hj : j.val < 160
    · rw [if_pos hj]
      by_cases hlt : j.val < n
      · rw [if_pos hlt, target_of_present ((h j hj).mpr hlt), Multiset.card_singleton]
      · rw [if_neg hlt, target_of_absent fun hp => hlt ((h j hj).mp hp), Multiset.card_zero]
    · rw [if_neg hj, if_neg (by omega), Multiset.card_zero]
  unfold userTargets
  rw [Multiset.card_sum, Finset.sum_congr rfl fun j _ => hone j, ← Finset.card_filter,
    Fin.card_filter_val_lt]
  omega

/-- `setupkvm` takes 13 pages. -/
theorem Blank.length_eq {m : Memory} {d : Nat} {l : List Nat} (h : Blank m d) (hpool : pool m d = ↑l) :
    m.freelist.length + 13 = l.length := by
  have hcard := congrArg Multiset.card hpool
  rw [pool, owned, users, if_pos h.dir] at hcard
  simp only [Multiset.card_add, Multiset.coe_card, Multiset.card_singleton, card_tables h.table,
    card_userTargets (Nat.zero_le 160) h.space.user] at hcard
  omega

/-- Where `setupkvm` fails, no page is free any more. -/
theorem setupkvm_exhausted {k : Link} {m t : Memory} (hfree : m.freelist.Nodup)
    (hrun : setupkvm k m = .ok (none, t)) : t.freelist = [] := by
  rw [setupkvm] at hrun
  obtain ⟨a, u, hk, hrest⟩ := bind_eq_ok hrun
  rcases kalloc_cases hk with ⟨hnil, rfl, rfl⟩ | ⟨d, rest, hcons, rfl, rfl⟩
  · cases hrest
    exact hnil
  · obtain ⟨_, u, hfill, hrest⟩ := bind_eq_ok hrest
    obtain ⟨-, hfresh, -⟩ := fresh_zero hfree hcons
    rw [← (assign_eq_ok hfill : u = _)] at hfresh
    obtain ⟨b, u', hmap, hret⟩ := bind_eq_ok hrest
    cases b with
    | true => cases hret
    | false =>
        cases hret
        exact ((mapKernel_kernel hfresh (kmap_regions k) hmap).2 rfl).2.2.1

namespace Space

variable {k : Link} {m t : Memory} {d n n' a b : Nat}

theorem within (h : Space m d n) (hw : Within d a b m t) (hb : b ≤ 160)
    (huser : ∀ j : Fin 1024, j.val < 160 → (Present (t.page (first m d) j) ↔ j.val < n')) :
    Space t d n' := by
  refine ⟨hw.nodup h.nodup, hw.present h.dir, ?_, ?_⟩
  · intro i j hi hij
    rw [hw.dir] at hi ⊢
    by_cases hi0 : i = 0
    · subst hi0
      have hj : 160 ≤ j.val := hij.resolve_left fun hne => hne rfl
      have hword := hw.words j (by omega)
      rw [first] at hword
      rw [hword]
      exact h.kernel 0 j hi hij
    · rw [hw.tables i hi0 hi]
      exact h.kernel i j hi hij
  · intro j hj
    rw [hw.first_eq]
    exact huser j hj

/-- Writing to user pages leaves the address space as it is. -/
theorem written (h : Space m d n) (hw : Within d 0 0 m t) : Space t d n := by
  refine h.within hw (by decide) ?_
  intro j hj
  rw [hw.words j (by omega)]
  exact h.user j hj

/-- `allocuvm` in an address space whose pages are all there. -/
theorem alloc {sz newsz r : Nat} (h : Space m d (pgroundup sz)) (hsz : sz ≤ usertop)
    (hrun : allocuvm k d sz newsz m = .ok (r, t)) :
    Within d 0 160 m t ∧
      (r ≠ 0 → r = max newsz sz ∧ r ≤ usertop ∧ Space t d (pgroundup r)) := by
  obtain ⟨hw, hne, _⟩ := allocuvm_within h.nodup h.dir hsz hrun
  refine ⟨hw.mono (Nat.zero_le _) le_rfl, ?_⟩
  intro hr
  obtain ⟨hval, htop, hw', hin⟩ := hne hr
  refine ⟨hval, htop, h.within hw' (pgroundup_le htop) ?_⟩
  have hmono : pgroundup sz ≤ pgroundup r := pgroundup_mono (by rw [hval]; exact le_max_right _ _)
  intro j hj
  by_cases hlt : j.val < pgroundup sz
  · rw [hw'.words j (by omega), h.user j hj]
    omega
  · by_cases hlt' : j.val < pgroundup r
    · exact ⟨fun _ => hlt', fun _ => hin j (by omega) hlt'⟩
    · rw [hw'.words j (by omega), h.user j hj]
      omega

/-- A turn of `loaduvm` that stores in the pages that are mapped, or nothing. -/
theorem storeTurn_within {vp : Nat} {j : Fin 1024} {bytes : List UInt8} (h : Space m d n) (hn : n ≤ 160)
    (hstay : bytes = [] ∨ vp < n) (hj : j = ptx vp)
    (hu : t = m.setPage (pteAddr (m.page (pteAddr (m.page d (pdx vp))) j))
      (poke (m.page (pteAddr (m.page (pteAddr (m.page d (pdx vp))) j))) 0 bytes)) : Within d 0 0 m t := by
  rw [hu]
  rcases hstay with rfl | hvp
  · have hsame : m.setPage (pteAddr (m.page (pteAddr (m.page d (pdx vp))) j))
        (poke (m.page (pteAddr (m.page (pteAddr (m.page d (pdx vp))) j))) 0 []) = m := by
      rw [poke_nil, Memory.setPage, Function.update_eq_self]
    rw [hsame]
    exact .refl ..
  · have hjv : (ptx vp).val = vp := ptx_user (by omega)
    rw [hj, pdx_user (by omega)]
    exact userPage_within _ h.nodup h.dir (by omega) ((h.user (ptx vp) (by omega)).mpr (by omega))

theorem loadLoop_within {addr offset sz i turns : Nat} {readi : Readi} {rest : Prop} {r : Bool} (h : Space m d n)
    (hn : n ≤ 160) (hstay : Stays readi n addr offset sz rest turns i)
    (hrun : loadLoop d addr readi offset sz turns i m = .ok (r, t)) : Within d 0 0 m t ∧ (r = true → rest) := by
  induction turns generalizing i m with
  | zero =>
      cases hrun
      exact ⟨.refl .., fun _ => hstay⟩
  | succ turns ih =>
      obtain ⟨hbytes, hnext⟩ := hstay
      rw [loadLoop] at hrun
      by_cases hp : Present (m.page d (pdx ((addr + i) % 2 ^ 32 / pgsize)))
      · rw [bind_of_ok (walkpgdir_found hp)] at hrun
        obtain ⟨w, u, hw, hrun⟩ := bind_eq_ok hrun
        cases hw
        obtain ⟨old, u, hold, hrun⟩ := bind_eq_ok hrun
        cases hold
        obtain ⟨_, u, hfill, hrun⟩ := bind_eq_ok hrun
        have hstep : Within d 0 0 m u := h.storeTurn_within hn hbytes rfl (assign_eq_ok hfill)
        split at hrun
        · rename_i hgot
          obtain ⟨hw, hend⟩ := ih (h.written hstep) (hnext hgot) hrun
          exact ⟨hstep.trans hw, hend⟩
        · cases hrun
          exact ⟨hstep, fun hc => absurd hc Bool.false_ne_true⟩
      · rw [bind_of_ok (walkpgdir_absent hp)] at hrun
        cases hrun

theorem loaduvm_within {addr offset sz : Nat} {readi : Readi} {rest : Prop} {r : Bool} (h : Space m d n)
    (hn : n ≤ 160) (hstay : addr % pgsize = 0 → Stays readi n addr offset sz rest (pgroundup sz) 0)
    (hrun : loaduvm d addr readi offset sz m = .ok (r, t)) : Within d 0 0 m t ∧ (r = true → rest) := by
  unfold loaduvm at hrun
  split at hrun
  · cases hrun
  · rename_i halign
    exact h.loadLoop_within hn (hstay (not_not.mp halign)) hrun

/-- Free pages and mapped user pages together stay as many as they are. -/
theorem length_eq (h : Space m d n) (h' : Space t d n') (hn : n ≤ 160) (hn' : n' ≤ 160) (hw : Within d a b m t) :
    t.freelist.length + n' = m.freelist.length + n := by
  have hcard := congrArg Multiset.card hw.moved.pool
  have htables : tables t d = tables m d := by
    unfold tables
    rw [hw.dir]
  rw [pool, pool, owned, owned, users, users, if_pos h.dir, if_pos h'.dir, htables] at hcard
  simp only [Multiset.card_add, Multiset.coe_card, card_userTargets hn h.user, card_userTargets hn' h'.user]
    at hcard
  omega

/-- `uva2ka` finds user pages only. -/
theorem uva2ka_found {vp r : Nat} (h : Space m d n) (hrun : uva2ka d vp m = .ok (r, t)) :
    t = m ∧ (r ≠ 0 → ∃ j : Fin 1024, j.val < 160 ∧ Present (m.page (first m d) j) ∧
      r = pteAddr (m.page (first m d) j)) := by
  unfold uva2ka at hrun
  by_cases hp : Present (m.page d (pdx vp))
  · rw [bind_of_ok (walkpgdir_found hp)] at hrun
    obtain ⟨w, u, hw, hrun⟩ := bind_eq_ok hrun
    cases hw
    split at hrun
    · cases hrun
      exact ⟨rfl, fun hc => absurd rfl hc⟩
    · rename_i hpres
      split at hrun
      · cases hrun
        exact ⟨rfl, fun hc => absurd rfl hc⟩
      · rename_i huser
        cases hrun
        -- Only the entries below `USERTOP` have `PTE_U`.
        have hplace : pdx vp = 0 ∧ (ptx vp).val < 160 := by
          by_contra hc
          refine absurd (not_not.mp huser) (h.kernel (pdx vp) (ptx vp) hp ?_)
          by_cases h0 : pdx vp = 0
          · right
            by_contra hlt
            exact hc ⟨h0, by omega⟩
          · exact .inl h0
        rw [hplace.1] at hpres ⊢
        exact ⟨rfl, fun _ => ⟨ptx vp, hplace.2, not_not.mp hpres, rfl⟩⟩
  · rw [bind_of_ok (walkpgdir_absent hp)] at hrun
    cases hrun

theorem copyoutLoop_within {fuel va : Nat} {buf : List UInt8} {r : Bool} (h : Space m d n)
    (hrun : copyoutLoop d fuel va buf m = .ok (r, t)) : Within d 0 0 m t := by
  induction fuel generalizing va buf m with
  | zero =>
      cases hrun
      exact .refl ..
  | succ fuel ih =>
      rw [copyoutLoop] at hrun
      split at hrun
      · cases hrun
        exact .refl ..
      · obtain ⟨pa, u, hua, hrest⟩ := bind_eq_ok hrun
        obtain ⟨hsame, hfound⟩ := h.uva2ka_found hua
        rw [hsame] at hrest
        split at hrest
        · cases hrest
          exact .refl ..
        · rename_i hpa
          obtain ⟨j, hj, hpres, hval⟩ := hfound hpa
          obtain ⟨old, u', hold, hrest⟩ := bind_eq_ok hrest
          cases hold
          obtain ⟨_, u', hfill, hrest⟩ := bind_eq_ok hrest
          have hu := assign_eq_ok hfill
          have hstep : Within d 0 0 m u' := by
            rw [hu, hval]
            exact userPage_within _ h.nodup h.dir hj hpres
          exact hstep.trans (ih (h.written hstep) hrest)

theorem pushArgs_within {sp argc : Nat} {argv : List (List UInt8)} {r : Option (Nat × List Nat)}
    (h : Space m d n) (hrun : pushArgs d sp argc argv m = .ok (r, t)) : Within d 0 0 m t := by
  induction argv generalizing sp argc m r t with
  | nil =>
      cases hrun
      exact .refl ..
  | cons arg argv ih =>
      rw [pushArgs] at hrun
      split at hrun
      · cases hrun
        exact .refl ..
      · obtain ⟨b, u, hcopy, hrun⟩ := bind_eq_ok hrun
        have hstep : Within d 0 0 m u := h.copyoutLoop_within hcopy
        cases b with
        | false =>
            cases hrun
            exact hstep
        | true =>
            obtain ⟨r', u', hrest, hret⟩ := bind_eq_ok hrun
            have hlast : u' = t := by
              cases r' with
              | none =>
                  cases hret
                  rfl
              | some x =>
                  cases hret
                  rfl
            rw [← hlast]
            exact hstep.trans (ih (h.written hstep) hrest)

theorem loadSegments_within {readi : Readi} {phdrs : List (Option Proghdr)} {sz room : Nat} {r : Option Nat}
    (hin : AllStay readi room sz phdrs) (h : Space m d (pgroundup sz)) (hsz : sz ≤ usertop)
    (hroom : m.freelist.length + pgroundup sz = room)
    (hrun : loadSegments k d readi sz phdrs m = .ok (r, t)) :
    Within d 0 160 m t ∧ ∀ sz', r = some sz' → sz' ≤ usertop ∧ Space t d (pgroundup sz') := by
  induction phdrs generalizing sz m with
  | nil =>
      cases hrun
      refine ⟨.refl .., ?_⟩
      intro sz' hr
      cases hr
      exact ⟨hsz, h⟩
  | cons x phdrs ih =>
      have hbad : Within d 0 160 m m ∧ ∀ sz', (none : Option Nat) = some sz' →
          sz' ≤ usertop ∧ Space m d (pgroundup sz') := ⟨.refl .., fun _ hc => by simp at hc⟩
      cases x with
      | none =>
          cases hrun
          exact hbad
      | some ph =>
          rw [loadSegments] at hrun
          split at hrun
          · rename_i htype
            exact ih (hin.1 htype) h hsz hroom hrun
          · rename_i htype
            split at hrun
            · cases hrun
              exact hbad
            · rename_i hmem
              obtain ⟨sz', u, halloc, hrest⟩ := bind_eq_ok hrun
              obtain ⟨hw, hgood⟩ := h.alloc hsz halloc
              split at hrest
              · cases hrest
                exact ⟨hw, fun _ hc => by simp at hc⟩
              · rename_i hne
                obtain ⟨hval, htop, hspace⟩ := hgood hne
                obtain ⟨b, u', hload, hrest⟩ := bind_eq_ok hrest
                change sz' = ph.reach sz at hval
                have hroom' := h.length_eq hspace (pgroundup_le hsz) (pgroundup_le htop) hw
                have hsmall : (ph.va + ph.memsz).toNat ≤ usertop := by
                  rw [hval] at htop
                  exact (le_max_left _ _).trans htop
                have hstay := hin.2 (not_not.mp htype) (UInt32.not_lt.mp hmem) hsmall (by rwa [← hval])
                  (by rw [← hval]; omega)
                rw [← hval] at hstay
                obtain ⟨hstep, hnext⟩ := hspace.loaduvm_within (pgroundup_le htop) hstay hload
                have hspace' := hspace.written hstep
                have hw' : Within d 0 160 m u' := hw.trans (hstep.mono le_rfl (Nat.zero_le _))
                have hroom'' := h.length_eq hspace' (pgroundup_le hsz) (pgroundup_le htop) hw'
                cases b with
                | false =>
                    cases hrest
                    exact ⟨hw', fun _ hc => by simp at hc⟩
                | true =>
                    obtain ⟨hw'', hres⟩ := ih (hnext rfl) hspace' htop (hroom''.trans hroom) hrest
                    exact ⟨hw'.trans hw'', hres⟩

theorem buildImage_within {readi : Readi} {phdrs : List (Option Proghdr)} {argv : List (List UInt8)}
    {r : Option Nat} (hin : AllStay readi m.freelist.length 0 phdrs) (h : Space m d 0)
    (hrun : buildImage k d readi phdrs argv m = .ok (r, t)) :
    Within d 0 160 m t ∧ ∀ sz, r = some sz → sz ≤ usertop ∧ Space t d (pgroundup sz) := by
  obtain ⟨r₁, u₁, hload, hrest⟩ := bind_eq_ok hrun
  have h₀ : Space m d (pgroundup 0) := h
  obtain ⟨hw₁, hres⟩ := loadSegments_within hin h₀ (Nat.zero_le _) rfl hload
  cases r₁ with
  | none =>
      cases hrest
      exact ⟨hw₁, fun _ hc => by simp at hc⟩
  | some sz =>
      obtain ⟨hsz, hspace₁⟩ := hres sz rfl
      have hround : pgroundup (pgsize * pgroundup sz) = pgroundup sz := by
        simp only [pgroundup, pgsize]
        omega
      have htop₁ : pgsize * pgroundup sz ≤ usertop := by
        simp only [pgroundup, pgsize, usertop] at hsz ⊢
        omega
      obtain ⟨sz', u₂, halloc, hrest⟩ := bind_eq_ok hrest
      obtain ⟨hw₂, hgood⟩ := Space.alloc (by rw [hround]; exact hspace₁) htop₁ halloc
      have hw₂' := hw₁.trans hw₂
      split at hrest
      · cases hrest
        exact ⟨hw₂', fun _ hc => by simp at hc⟩
      · rename_i hne
        obtain ⟨_, htop, hspace₂⟩ := hgood hne
        obtain ⟨r₃, u₃, hpush, hrest⟩ := bind_eq_ok hrest
        have hw₃ := hspace₂.pushArgs_within hpush
        have hspace₃ := hspace₂.written hw₃
        have hw₃' := hw₂'.trans (hw₃.mono le_rfl (Nat.zero_le _))
        cases r₃ with
        | none =>
            cases hrest
            exact ⟨hw₃', fun _ hc => by simp at hc⟩
        | some x =>
            obtain ⟨b, u₄, hcopy, hrest⟩ := bind_eq_ok hrest
            have hw₄ : Within d 0 0 u₃ u₄ := hspace₃.copyoutLoop_within hcopy
            have hw₄' := hw₃'.trans (hw₄.mono le_rfl (Nat.zero_le _))
            cases b with
            | false =>
                cases hrest
                exact ⟨hw₄', fun _ hc => by simp at hc⟩
            | true =>
                cases hrest
                refine ⟨hw₄', ?_⟩
                intro sz'' hr
                cases hr
                exact ⟨htop, hspace₃.written hw₄⟩

theorem copyLoop_within {old turns vp : Nat} {r : Bool} (h : Space m d vp) (htop : vp + turns ≤ 160)
    (hrun : copyLoop d old turns vp m = .ok (r, t)) :
    Within d 0 160 m t ∧ (r = true → Space t d (vp + turns)) := by
  induction turns generalizing vp m with
  | zero =>
      cases hrun
      exact ⟨.refl .., fun _ => h⟩
  | succ turns ih =>
      rw [copyLoop] at hrun
      obtain ⟨x, u, hwalk, hrest⟩ := bind_eq_ok hrun
      cases x with
      | none => cases hrest
      | some tj =>
          have hsame : u = m := by
            by_cases hp : Present (m.page old (pdx vp))
            · rw [walkpgdir_found hp] at hwalk
              cases hwalk
              rfl
            · rw [walkpgdir_absent hp] at hwalk
              cases hwalk
          rw [hsame] at hrest
          obtain ⟨w, u₁, hw, hrest⟩ := bind_eq_ok hrest
          cases hw
          split at hrest
          · obtain ⟨a, u₂, hk, hrest⟩ := bind_eq_ok hrest
            rcases kalloc_cases hk with ⟨_, ha, hu₂⟩ | ⟨p, rest, hfree, ha, hu₂⟩
            · rw [ha, hu₂] at hrest
              cases hrest
              exact ⟨.refl .., fun hc => absurd hc Bool.false_ne_true⟩
            · rw [ha, hu₂] at hrest
              obtain ⟨src, u₃, hsrc, hrest⟩ := bind_eq_ok hrest
              cases hsrc
              obtain ⟨_, u₄, hfill, hrest⟩ := bind_eq_ok hrest
              have hu₄ := assign_eq_ok hfill
              obtain ⟨b, u₅, hmap, hrest⟩ := bind_eq_ok hrest
              rw [hu₄] at hmap
              obtain ⟨hb, hstep, hpres⟩ := mapUser_within (by omega) h.nodup h.dir hfree hmap
              rw [hb] at hrest
              have hspace : Space u₅ d (vp + 1) := by
                refine h.within hstep (by omega) ?_
                intro j hj
                by_cases hjv : j.val = vp
                · have hjp : j = ptx vp := Fin.ext (by rw [ptx_user (by omega)]; exact hjv)
                  rw [hjp]
                  exact ⟨fun _ => by rw [← hjp]; omega, fun _ => hpres⟩
                · rw [hstep.words j (by omega), h.user j hj]
                  omega
              obtain ⟨hw', hres⟩ := ih hspace (by omega) hrest
              refine ⟨(hstep.mono (Nat.zero_le _) (by omega)).trans hw', ?_⟩
              intro hr
              have hsp := hres hr
              rw [Nat.add_assoc, Nat.add_comm 1] at hsp
              exact hsp
          · cases hrest

end Space

/-- A new address space, or none.  All its pages come from the free list. -/
structure Built (m t : Memory) (r : Option Nat) (n : Nat → Prop) : Prop where
  frame : ∀ p, p ∉ m.freelist → t.page p = m.page p
  done : ∀ d, r = some d → pool t d = ↑m.freelist ∧ ∃ k, n k ∧ Space t d k
  undone : r = none → (↑t.freelist : Multiset Nat) = ↑m.freelist

section Undo

variable {k : Link} {m u t : Memory} {d : Nat} {n : Nat → Prop}

/-- `freevm` undoes what has been done under a directory that `setupkvm` returned. -/
theorem built_of_freevm {r : Unit} (hframe : ∀ p, p ∉ m.freelist → u.page p = m.page p)
    (hpool : pool u d = ↑m.freelist) (hdir : Present (u.page d 0)) (hfree : m.freelist.Nodup)
    (hrun : freevm k d u = .ok (r, t)) : Built m t none n := by
  obtain ⟨hback, hkeep⟩ := freevm_free (by rw [hpool]; exact hfree) hdir hrun
  refine ⟨?_, fun d hd => by simp at hd, fun _ => hback.trans hpool⟩
  intro p hp
  rw [hkeep p (by rw [hpool]; simpa using hp), hframe p hp]

theorem moved_frame (hframe : ∀ p, p ∉ m.freelist → u.page p = m.page p)
    (hpool : pool u d = ↑m.freelist) (hw : Moved d u t) :
    (∀ p, p ∉ m.freelist → t.page p = m.page p) ∧ pool t d = ↑m.freelist := by
  refine ⟨?_, hw.pool.trans hpool⟩
  intro p hp
  rw [hw.frame p (by rw [hpool]; simpa using hp), hframe p hp]

end Undo

theorem copyuvm_built {k : Link} {m t : Memory} {old sz : Nat} {r : Option Nat}
    (hfree : m.freelist.Nodup) (hsz : sz ≤ usertop)
    (hroom : m.freelist.length = 0 ∨ 12 < m.freelist.length)
    (hrun : copyuvm k old sz m = .ok (r, t)) : Built m t r (· = pgroundup sz) := by
  rw [copyuvm] at hrun
  obtain ⟨a, u, hset, hrest⟩ := bind_eq_ok hrun
  obtain ⟨hframe, hsome, hnone⟩ := setupkvm_spec hfree hset
  cases a with
  | none =>
      cases hrest
      rcases hnone rfl with ⟨_, rfl⟩ | ⟨hpos, hle⟩
      · exact ⟨fun _ _ => rfl, fun d hd => by simp at hd, fun _ => rfl⟩
      · omega
  | some d =>
      obtain ⟨hpool, hblank⟩ := hsome d rfl
      obtain ⟨b, u', hcopy, hrest⟩ := bind_eq_ok hrest
      obtain ⟨hw, hres⟩ := Space.copyLoop_within hblank.space
        (by rw [Nat.zero_add]; exact pgroundup_le hsz) hcopy
      obtain ⟨hframe', hpool'⟩ := moved_frame hframe hpool hw.moved
      cases b with
      | true =>
          cases hrest
          have hspace := hres rfl
          rw [Nat.zero_add] at hspace
          refine ⟨hframe', ?_, fun hc => by simp at hc⟩
          intro d' hd'
          cases hd'
          exact ⟨hpool', _, rfl, hspace⟩
      | false =>
          obtain ⟨_, u'', hfreevm, hret⟩ := bind_eq_ok hrest
          cases hret
          exact built_of_freevm hframe' hpool' (hw.present hblank.dir) hfree hfreevm

end Vm
end Xv6
end LfsXv6
