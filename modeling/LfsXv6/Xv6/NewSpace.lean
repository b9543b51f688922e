import LfsXv6.Xv6.GrowProc

/-!
# NewSpace — a new address space from the free list and back

`setupkvm` never meets an entry that is there already, and with 13 free pages it succeeds.  All pages
that are put under its directory afterwards come from the free list as well, each user page is counted,
and `freevm` takes them back without a panic.
-/

namespace LfsXv6
namespace Xv6
namespace Vm

open Lib Prog

/-! ## `setupkvm` returns -/

/-- No page from `v` on is mapped. -/
def Clear (m : Memory) (d v : Nat) : Prop :=
  ∀ v', v ≤ v' → v' < 2 ^ 20 → Present (m.page d (pdx v')) →
    ¬ Present (m.page (pteAddr (m.page d (pdx v'))) (ptx v'))

section Setup

variable {k : Link} {m t : Memory} {d vp p perm v : Nat}

theorem Clear.mono (h : Clear m d vp) (hle : vp ≤ v) : Clear m d v := fun v' hv' => h v' (by omega)

theorem page_eq_of_indices {v v' : Nat} (hv : v < 2 ^ 20) (hv' : v' < 2 ^ 20) (hd : pdx v = pdx v')
    (ht : ptx v = ptx v') : v = v' := by
  have hd' : v / 1024 % 1024 = v' / 1024 % 1024 := congrArg Fin.val hd
  have ht' : v % 1024 = v' % 1024 := congrArg Fin.val ht
  omega

/-- `mapPage` where the page table exists. -/
theorem mapPage_run_found (p perm : Nat) (hnd : (owned m d).Nodup) (hclear : Clear m d vp) (hhi : vp < 2 ^ 20)
    (hp : Present (m.page d (pdx vp))) :
    ∃ t, mapPage d vp p perm m = .ok (true, t) ∧ Clear t d (vp + 1) := by
  have hrun : mapPage d vp p perm m =
      .ok (true, m.setWord (pteAddr (m.page d (pdx vp))) (ptx vp) (pte p perm)) := by
    rw [mapPage, bind_of_ok (walkpgdir_found hp)]
    simp only
    rw [bind_of_ok (x := look fun u : Memory => u.page (pteAddr (m.page d (pdx vp))) (ptx vp)) (s := m) rfl,
      if_neg (hclear vp le_rfl hhi hp)]
    rfl
  refine ⟨_, hrun, ?_⟩
  intro v' hlo hhi' hp'
  rw [setWord_ne (table_ne_dir hnd hp).symm] at hp' ⊢
  by_cases heq : pteAddr (m.page d (pdx v')) = pteAddr (m.page d (pdx vp))
  · have hdx : pdx v' = pdx vp := table_inj hnd hp' hp heq
    have hne : ptx v' ≠ ptx vp := by
      intro htx
      have := page_eq_of_indices hhi' hhi hdx htx
      omega
    rw [hdx, setWord_self, Function.update_of_ne hne]
    have hold := hclear v' (by omega) hhi' hp'
    rwa [hdx] at hold
  · rw [setWord_ne heq]
    exact hclear v' (by omega) hhi' hp'

theorem mapPage_run (p perm : Nat) (h : Fresh m d) (hclear : Clear m d vp) (hhi : vp < 2 ^ 20)
    (hin : pdx vp ∈ kernelTables) :
    ∃ r t, mapPage d vp p perm m = .ok (r, t) ∧ (r = true → Clear t d (vp + 1)) := by
  by_cases hp : Present (m.page d (pdx vp))
  · obtain ⟨t, hrun, hclear'⟩ := mapPage_run_found p perm (owned_nodup h.nodup) hclear hhi hp
    exact ⟨true, t, hrun, fun _ => hclear'⟩
  · cases hfree : m.freelist with
    | nil =>
        have hwalk : walkpgdir d vp true m = .ok (none, m) := by
          have hk : kalloc m = .ok (none, m) := by
            unfold kalloc
            rw [hfree]
          rw [walkpgdir, bind_of_ok (x := look fun m : Memory => m.page d (pdx vp)) rfl, if_neg hp,
            if_pos rfl, bind_of_ok hk]
          rfl
        refine ⟨false, m, ?_, fun hc => absurd hc Bool.false_ne_true⟩
        rw [mapPage, bind_of_ok hwalk]
        rfl
    | cons q rest =>
        have hwalk : walkpgdir d vp true m = .ok (some (q, ptx vp), newTable m d q (pdx vp) rest) := by
          have hk : kalloc m = .ok (some q, { m with freelist := rest }) := by
            unfold kalloc
            rw [hfree]
          rw [walkpgdir, bind_of_ok (x := look fun m : Memory => m.page d (pdx vp)) rfl, if_neg hp,
            if_pos rfl, bind_of_ok hk]
          rfl
        have hfresh : q ∉ owned m d := free_not_owned h.nodup (by rw [hfree]; exact List.mem_cons_self)
        have hqd : q ≠ d := by
          rintro rfl
          exact hfresh (dir_mem_owned m q)
        have hdir : (newTable m d q (pdx vp) rest).page d =
            Function.update (m.page d) (pdx vp) (pte q 6) := newTable_dir hqd.symm
        have hentry : (newTable m d q (pdx vp) rest).page d (pdx vp) = pte q 6 := by
          rw [hdir, Function.update_self]
        have hpres : Present ((newTable m d q (pdx vp) rest).page d (pdx vp)) := by
          rw [hentry]
          exact pte_present rfl
        -- with the new page table the rest is the call in which it is there
        have hsame : mapPage d vp p perm m = mapPage d vp p perm (newTable m d q (pdx vp) rest) := by
          rw [mapPage, bind_of_ok hwalk, bind_of_ok (walkpgdir_found hpres), hentry,
            pteAddr_pte (by decide)]
        have hclear' : Clear (newTable m d q (pdx vp) rest) d vp := by
          intro v' hlo hhi' hp'
          by_cases hdx : pdx v' = pdx vp
          · rw [hdx, hentry, pteAddr_pte (by decide), newTable_table hqd]
            exact Nat.zero_ne_one
          · rw [hdir, Function.update_of_ne hdx] at hp' ⊢
            have hmem : pteAddr (m.page d (pdx v')) ∈ owned m d := by
              simp only [owned, Multiset.mem_add]
              exact .inl (.inr (mem_tables.mpr ⟨pdx v', hp', rfl⟩))
            have hother : pteAddr (m.page d (pdx v')) ≠ q := by
              rintro rfl
              exact hfresh hmem
            rw [newTable_ne (table_ne_dir (owned_nodup h.nodup) hp') hother]
            exact hclear v' hlo hhi' hp'
        obtain ⟨t, hrun, hdone⟩ := mapPage_run_found p perm
          (owned_nodup (h.newTable hfree hp hin).nodup) hclear' hhi hpres
        exact ⟨true, t, hsame.trans hrun, fun _ => hdone⟩

theorem mapLoop_run {n : Nat} (h : Fresh m d) (hreg : Region vp n perm) (hclear : Clear m d vp) :
    ∃ r t, mapLoop d perm n vp p m = .ok (r, t) ∧ (r = true → Clear t d (vp + n + 1)) := by
  induction n generalizing vp p m with
  | zero =>
      have hhigh := hreg.high
      exact mapPage_run _ _ h hclear (by omega) (hreg.kernel vp le_rfl le_rfl)
  | succ n ih =>
      have hhigh := hreg.high
      have hlow := hreg.low
      obtain ⟨b, u, hone, hclear'⟩ := mapPage_run p perm h hclear (by omega)
        (hreg.kernel vp le_rfl (by omega))
      cases b with
      | false =>
          refine ⟨false, u, ?_, fun hc => absurd hc Bool.false_ne_true⟩
          rw [mapLoop, bind_of_ok hone]
          rfl
      | true =>
          obtain ⟨hmapped, -⟩ := (mapPage_kernel h hlow (by omega)
            (hreg.kernel vp le_rfl (by omega)) hreg.perm hone).1 rfl
          have hreg' : Region (vp + 1) n perm :=
            ⟨by omega, by omega, fun v hv hv' => hreg.kernel v (by omega) (by omega), hreg.perm⟩
          obtain ⟨r, t, hrest, hdone⟩ := ih (p := p + 1) hmapped.fresh hreg' (hclear' rfl)
          refine ⟨r, t, ?_, fun hr => (hdone hr).mono (by omega)⟩
          rw [mapLoop, bind_of_ok hone]
          exact hrest

/-- The mappings of a list come one behind the other. -/
theorem mapKernel_run {rs : List (Nat × Nat × Nat)} (h : Fresh m d) (hrs : ∀ x ∈ rs, KernelRegion x)
    (horder : rs.Pairwise fun x y => lastPage x < y.1 / pgsize)
    (hclear : ∀ x ∈ rs, Clear m d (x.1 / pgsize)) : ∃ r t, mapKernel d rs m = .ok (r, t) := by
  induction rs generalizing m with
  | nil => exact ⟨true, m, rfl⟩
  | cons x rs ih =>
      obtain ⟨lo, hi, perm⟩ := x
      obtain ⟨hfirst, horder'⟩ := List.pairwise_cons.mp horder
      have hreg := hrs (lo, hi, perm) List.mem_cons_self
      obtain ⟨b, u, hone, hdone⟩ := mapLoop_run (p := lo / pgsize) h hreg (hclear _ List.mem_cons_self)
      have hmap : mappages d lo (usub hi lo) lo perm m = .ok (b, u) := hone
      cases b with
      | false =>
          refine ⟨false, u, ?_⟩
          rw [mapKernel, bind_of_ok hmap]
          rfl
      | true =>
          obtain ⟨hmapped, -⟩ := (mapLoop_kernel h hreg hone).1 rfl
          obtain ⟨r, t, hrest⟩ := ih hmapped.fresh (fun y hy => hrs y (List.mem_cons_of_mem _ hy)) horder'
            fun y hy => (hdone rfl).mono (hfirst y hy)
          refine ⟨r, t, ?_⟩
          rw [mapKernel, bind_of_ok hmap]
          exact hrest

theorem kmap_pairwise (k : Link) : (kmap k).Pairwise fun x y => lastPage x < y.1 / pgsize := by
  have htext := k.text
  have hbelow := k.below
  simp only [kmap, List.pairwise_cons, List.mem_cons, List.not_mem_nil, or_false, forall_eq_or_imp,
    forall_eq, List.Pairwise.nil, IsEmpty.forall_iff, implies_true, and_true, lastPage, usub, pgsize,
    usertop, phystop]
  omega

end Setup

/-! ## Address spaces that are being filled -/

/-- An address space under construction: `n` user pages, and everything in it was free. -/
structure NewSpace (k : Link) (fresh : List Nat) (m : Memory) (d n : Nat) : Prop where
  space : Space m d n
  top : n ≤ 160
  table : ∀ i, Present (m.page d i) ↔ i ∈ kernelTables
  marked : Marked m d
  pool : pool m d = ↑fresh
  ram : ∀ p ∈ fresh, Ram k p

section Setup

variable {k : Link} {m t : Memory}

/-- `setupkvm` makes an empty address space if it gets 13 pages. -/
theorem setupkvm_run (hfree : m.freelist.Nodup) (hram : ∀ p ∈ m.freelist, Ram k p) :
    ∃ r t, setupkvm k m = .ok (r, t) ∧ (∀ p, p ∉ m.freelist → t.page p = m.page p) ∧
      (∀ d, r = some d → d ∈ m.freelist ∧ NewSpace k m.freelist t d 0) ∧
      (r = none → m.freelist.length ≤ 12) := by
  have hret : ∃ r t, setupkvm k m = .ok (r, t) := by
    cases hcons : m.freelist with
    | nil =>
        have hk : kalloc m = .ok (none, m) := by
          unfold kalloc
          rw [hcons]
        refine ⟨none, m, ?_⟩
        rw [setupkvm, bind_of_ok hk]
        rfl
    | cons d rest =>
        have hk : kalloc m = .ok (some d, { m with freelist := rest }) := by
          unfold kalloc
          rw [hcons]
        obtain ⟨-, hfresh, habs⟩ := fresh_zero hfree hcons
        obtain ⟨b, t, hmap⟩ := mapKernel_run hfresh (kmap_regions k) (kmap_pairwise k)
          fun x _ v' _ _ hp => absurd hp (habs _)
        cases b with
        | true =>
            refine ⟨some d, t, ?_⟩
            rw [setupkvm, bind_of_ok hk]
            simp only
            rw [bind_of_ok (x := fill d fun _ => 0) rfl, bind_of_ok hmap]
            rfl
        | false =>
            refine ⟨none, t, ?_⟩
            rw [setupkvm, bind_of_ok hk]
            simp only
            rw [bind_of_ok (x := fill d fun _ => 0) rfl, bind_of_ok hmap]
            rfl
  obtain ⟨r, t, hrun⟩ := hret
  obtain ⟨hframe, hsome, hnone⟩ := setupkvm_spec hfree hrun
  refine ⟨r, t, hrun, hframe, ?_, ?_⟩
  · intro d hd
    obtain ⟨hpool, hblank⟩ := hsome d hd
    have hin : d ∈ (↑m.freelist : Multiset Nat) := by
      rw [← hpool]
      exact dir_mem_pool t d
    refine ⟨hin, hblank.space, Nat.zero_le _, hblank.table, ?_, hpool, hram⟩
    intro j hj hp
    exact absurd ((hblank.space.user j hj).mp hp) (Nat.not_lt_zero _)
  · intro hr
    rcases hnone hr with ⟨hnil, -⟩ | ⟨-, hle⟩
    · rw [hnil]
      exact Nat.zero_le _
    · exact hle

end Setup

section Counting

variable {m : Memory} {d n : Nat}

end Counting

namespace NewSpace

variable {k : Link} {fresh : List Nat} {m t : Memory} {d n n' a b : Nat} {j : Fin 1024}

theorem tidy (h : NewSpace k fresh m d n) : Tidy k m d := by
  refine ⟨h.space.nodup, h.space.dir, ?_⟩
  intro p hp
  rw [h.pool] at hp
  exact h.ram p hp

/-- Every page of an address space is accounted for. -/
theorem length_eq (h : NewSpace k fresh m d n) : m.freelist.length + 13 + n = fresh.length := by
  have hcard := congrArg Multiset.card h.pool
  rw [Vm.pool, owned, users, if_pos h.space.dir, Multiset.card_add, Multiset.card_add, Multiset.card_add,
    Multiset.card_singleton, card_tables h.table, card_userTargets h.top h.space.user, Multiset.coe_card,
    Multiset.coe_card] at hcard
  omega

/-- An entry for user memory: a user page that was free. -/
theorem entry (h : NewSpace k fresh m d n) (hj : j.val < n) : Present (m.page (first m d) j) ∧
    User (m.page (first m d) j) ∧ pteAddr (m.page (first m d) j) ∈ fresh := by
  have htop := h.top
  have hp := (h.space.user j (by omega)).mpr hj
  refine ⟨hp, h.marked j (by omega) hp, ?_⟩
  have hmem := user_mem_pool h.space.dir (by omega) hp
  rw [h.pool] at hmem
  exact hmem

theorem within (h : NewSpace k fresh m d n) (hw : Within d a b m t) (hmark : Marked t d)
    (hspace : Space t d n') (htop : n' ≤ 160) : NewSpace k fresh t d n' := by
  refine ⟨hspace, htop, ?_, hmark, hw.moved.pool.trans h.pool, h.ram⟩
  intro i
  rw [hw.dir]
  exact h.table i

/-- Bytes are stored in a user page. -/
theorem store (h : NewSpace k fresh m d n) (hj : j.val < n) (w : Words) :
    Within d 0 0 m (m.setPage (pteAddr (m.page (first m d) j)) w) ∧
      NewSpace k fresh (m.setPage (pteAddr (m.page (first m d) j)) w) d n := by
  have htop := h.top
  have hw : Within d 0 0 m (m.setPage (pteAddr (m.page (first m d) j)) w) :=
    userPage_within w h.space.nodup h.space.dir (by omega) (h.entry hj).1
  refine ⟨hw, h.within hw ?_ (h.space.written hw) h.top⟩
  intro j' hj' hp
  rw [hw.first_eq, hw.words j' (by omega)] at hp ⊢
  exact h.marked j' hj' hp

/-- `allocuvm` succeeds if the new size is in bounds and there are enough pages. -/
theorem alloc_run {sz : Nat} (h : NewSpace k fresh m d (pgroundup sz)) (newsz : Nat) (hsz : sz ≤ usertop) :
    ∃ r t, allocuvm k d sz newsz m = .ok (r, t) ∧ Within d 0 160 m t ∧
      (r ≠ 0 ↔ newsz ≤ usertop ∧ max newsz sz ≠ 0 ∧ pgroundup (max newsz sz) + 13 ≤ fresh.length) ∧
      (r ≠ 0 → r = max newsz sz ∧ r ≤ usertop ∧ NewSpace k fresh t d (pgroundup r)) := by
  have habs : ∀ j : Fin 1024, pgroundup sz ≤ j.val → j.val < 160 → userPage m d j = none := by
    intro j hj hlt
    rw [userPage_eq_none, h.space.user j hlt]
    omega
  obtain ⟨r, t, hrun, hw, hmark, henough, -⟩ := allocuvm_run h.tidy newsz hsz habs
  obtain ⟨-, hgood⟩ := h.space.alloc hsz hrun
  refine ⟨r, t, hrun, hw.mono (Nat.zero_le _) le_rfl, ?_, ?_⟩
  · rw [henough]
    have hlen := h.length_eq
    have hpages : pgroundup (max newsz sz) = max (pgroundup newsz) (pgroundup sz) := by
      simp only [pgroundup]
      omega
    have hiff : pgroundup newsz - pgroundup sz ≤ m.freelist.length ↔
        pgroundup (max newsz sz) + 13 ≤ fresh.length := by omega
    rw [hiff]
  · intro hr
    obtain ⟨hval, htop, hspace⟩ := hgood hr
    exact ⟨hval, htop, h.within hw (hmark h.marked) hspace (pgroundup_le htop)⟩

end NewSpace

/-! ## `freevm` returns -/

section Freevm

variable {k : Link} {d : Nat}

theorem freeTables_run (is : List (Fin 1024)) {m : Memory} (hram : ∀ i, Present (m.page d i) →
    Ram k (pteAddr (m.page d i)) ∧ pteAddr (m.page d i) ≠ d) :
    ∃ t, each (freeTable k d) is m = .ok ((), t) := by
  induction is generalizing m with
  | nil => exact ⟨m, rfl⟩
  | cons i is ih =>
      have hone : ∃ u, freeTable k d i m = .ok ((), u) ∧ u.page d = m.page d := by
        rw [freeTable, bind_of_ok (x := look fun m : Memory => m.page d i) (s := m) rfl]
        by_cases hp : Present (m.page d i)
        · obtain ⟨hr, hne⟩ := hram i hp
          rw [if_pos hp]
          exact ⟨_, kfree_ok hr, setPage_ne hne.symm⟩
        · rw [if_neg hp]
          exact ⟨m, rfl, rfl⟩
      obtain ⟨u, hone, hdir⟩ := hone
      obtain ⟨t, hrest⟩ := ih (m := u) (by rw [hdir]; exact hram)
      refine ⟨t, ?_⟩
      rw [each, bind_of_ok hone]
      exact hrest

/-- `freevm` does not panic, and gives back all pages of the directory. -/
theorem freevm_run {m : Memory} (h : Tidy k m d) :
    ∃ t, freevm k d m = .ok ((), t) ∧ (↑t.freelist : Multiset Nat) = pool m d ∧
      ∀ p, p ∉ pool m d → t.page p = m.page p := by
  obtain ⟨u, hde, hw, -, -⟩ := deallocuvm_run h 0 (le_refl usertop)
  have hu := h.within hw
  obtain ⟨u', htabs⟩ := freeTables_run (k := k) (d := d) (List.finRange 1024) (m := u) fun i hi =>
    ⟨hu.ram _ (table_mem_pool hi), table_ne_dir (owned_nodup hu.nodup) hi⟩
  have hrun : freevm k d m = .ok ((), ({ u' with freelist := d :: u'.freelist } : Memory).setPage d
      fun _ => 0x01010101) := by
    rw [freevm, bind_of_ok hde, bind_of_ok htabs]
    exact kfree_ok (h.ram d (dir_mem_pool m d))
  exact ⟨_, hrun, freevm_free h.nodup h.dir hrun⟩

end Freevm

end Vm
end Xv6
end LfsXv6
