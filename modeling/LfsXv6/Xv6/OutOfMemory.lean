import LfsXv6.Xv6.VmCalls

/-!
# OutOfMemory — no page is lost when memory runs out

Every page is free or belongs to one process: the free list and the pages of the processes are
counted together, and a call moves pages between them.  A call that fails gives back what it has taken,
except where `setupkvm` runs out of memory halfway: with 2 to 13 free pages in `fork` and with 1 to 12 in
`exec`.
-/

namespace LfsXv6
namespace Xv6
namespace Vm

open Lib Prog

/-! ## Pages of processes -/

/-- The pages of a process. -/
def holding (m : Memory) : Option Proc → Multiset Nat
  | none => 0
  | some p => {p.kstack} + owned m p.pgdir

/-- All pages that are free or belong to a process. -/
@[irreducible] def pages (s : Machine) : Multiset Nat :=
  ↑s.mem.freelist + ∑ i, holding s.mem (s.procs i)

/-- What is known of a process. -/
structure Sized (m : Memory) (p : Proc) : Prop where
  dir : Present (m.page p.pgdir 0)
  size : p.sz ≤ usertop
  below : ∀ j : Fin 1024, j.val < 160 → Present (m.page (first m p.pgdir) j) → j.val < pgroundup p.sz

/-- No page is free and owned, or owned twice. -/
structure Accounted (s : Machine) : Prop where
  nodup : (pages s).Nodup
  sized : ∀ i p, s.procs i = some p → Sized s.mem p

section Frame

variable {m m' : Memory} {p : Proc}

theorem first_mem_owned {d : Nat} (h : Present (m.page d 0)) : first m d ∈ owned m d := by
  simp only [owned, Multiset.mem_add]
  exact .inl (.inr (mem_tables.mpr ⟨0, h, rfl⟩))

theorem dir_mem_owned (m : Memory) (d : Nat) : d ∈ owned m d := by simp [owned]

theorem owned_frame {d : Nat} (h : ∀ x ∈ owned m d, m'.page x = m.page x) : owned m' d = owned m d :=
  owned_congr (h d (dir_mem_owned m d)) fun h0 => h _ (first_mem_owned h0)

theorem Sized.frame (hs : Sized m p) (h : ∀ x ∈ owned m p.pgdir, m'.page x = m.page x) :
    Sized m' p := by
  have hdir := h _ (dir_mem_owned m p.pgdir)
  have hfirst : first m' p.pgdir = first m p.pgdir := by
    unfold first
    rw [hdir]
  refine ⟨?_, hs.size, ?_⟩
  · rw [hdir]
    exact hs.dir
  · intro j hj hp
    rw [hfirst, h _ (first_mem_owned hs.dir)] at hp
    exact hs.below j hj hp

end Frame

namespace Accounted

variable {s : Machine} {m' : Memory} {i : Fin nproc} {p : Proc} {x : Option Proc}

theorem split (s : Machine) (i : Fin nproc) : pages s = ↑s.mem.freelist + holding s.mem (s.procs i) +
    ∑ j ∈ Finset.univ.erase i, holding s.mem (s.procs j) := by
  unfold pages
  rw [← Finset.add_sum_erase Finset.univ (fun j => holding s.mem (s.procs j)) (Finset.mem_univ i)]
  abel

theorem nodup_pair (h : Accounted s) (i : Fin nproc) :
    (↑s.mem.freelist + holding s.mem (s.procs i)).Nodup := by
  have hnd := h.nodup
  rw [split s i] at hnd
  exact (Multiset.nodup_add.mp hnd).1

theorem nodup_free (h : Accounted s) : s.mem.freelist.Nodup :=
  (Multiset.nodup_add.mp (h.nodup_pair (Fin.ofNat 64 0))).1

theorem nodup_pool (h : Accounted s) (hp : s.procs i = some p) : (pool s.mem p.pgdir).Nodup := by
  have hnd := h.nodup_pair i
  rw [hp, holding] at hnd
  have hsum : (↑s.mem.freelist : Multiset Nat) + ({p.kstack} + owned s.mem p.pgdir) =
      {p.kstack} + pool s.mem p.pgdir := by
    rw [pool]
    abel
  rw [hsum] at hnd
  exact (Multiset.nodup_add.mp hnd).2.1

theorem owned_not_free (h : Accounted s) (hp : s.procs i = some p) {y : Nat}
    (hy : y ∈ owned s.mem p.pgdir) : y ∉ s.mem.freelist := fun hfree =>
  free_not_owned (h.nodup_pool hp) hfree hy

/-- The pages of another process are not touched. -/
theorem apart (h : Accounted s) {j : Fin nproc} {q : Proc} (hj : s.procs j = some q) (hne : j ≠ i)
    {y : Nat} (hy : y ∈ owned s.mem q.pgdir) :
    y ∉ (↑s.mem.freelist + holding s.mem (s.procs i) : Multiset Nat) := by
  have hnd := h.nodup
  rw [split s i] at hnd
  intro hin
  refine Multiset.disjoint_left.mp (Multiset.nodup_add.mp hnd).2.2 hin ?_
  rw [Multiset.mem_sum]
  refine ⟨j, Finset.mem_erase.mpr ⟨hne, Finset.mem_univ j⟩, ?_⟩
  rw [hj, holding]
  exact Multiset.mem_add.mpr (.inr hy)

/-- Pages move between the free list and one slot of the process table, and none is lost. -/
theorem exchange (h : Accounted s) (i : Fin nproc) (x : Option Proc)
    (hframe : ∀ y, y ∉ (↑s.mem.freelist + holding s.mem (s.procs i) : Multiset Nat) →
      m'.page y = s.mem.page y)
    (hbalance : ↑m'.freelist + holding m' x = ↑s.mem.freelist + holding s.mem (s.procs i))
    (hsized : ∀ p, x = some p → Sized m' p) :
    Accounted ⟨m', Function.update s.procs i x⟩ ∧ pages ⟨m', Function.update s.procs i x⟩ = pages s := by
  have hother : ∀ j, j ≠ i → ∀ q, s.procs j = some q → ∀ y ∈ owned s.mem q.pgdir,
      m'.page y = s.mem.page y := fun j hj q hq y hy => hframe y (h.apart hq hj hy)
  have hrest : ∑ j ∈ Finset.univ.erase i, holding m' (Function.update s.procs i x j) =
      ∑ j ∈ Finset.univ.erase i, holding s.mem (s.procs j) := by
    refine Finset.sum_congr rfl ?_
    intro j hj
    have hne := Finset.ne_of_mem_erase hj
    rw [Function.update_of_ne hne]
    cases hq : s.procs j with
    | none => rfl
    | some q => rw [holding, holding, owned_frame (hother j hne q hq)]
  have hpages : pages ⟨m', Function.update s.procs i x⟩ = pages s := by
    rw [split s i, split ⟨m', Function.update s.procs i x⟩ i]
    show ↑m'.freelist + holding m' (Function.update s.procs i x i) + _ = _
    rw [Function.update_self, hbalance, hrest]
  refine ⟨⟨?_, ?_⟩, hpages⟩
  · rw [hpages]
    exact h.nodup
  · intro j q hq
    by_cases hj : j = i
    · subst hj
      change Function.update s.procs j x j = some q at hq
      rw [Function.update_self] at hq
      exact hsized q hq
    · change Function.update s.procs i x j = some q at hq
      rw [Function.update_of_ne hj] at hq
      exact (h.sized j q hq).frame (hother j hj q hq)

/-- A failed call: only free pages have been written to. -/
theorem unchanged (h : Accounted s) (hframe : ∀ y, y ∉ s.mem.freelist → m'.page y = s.mem.page y)
    (hfree : (↑m'.freelist : Multiset Nat) = ↑s.mem.freelist) :
    Accounted { s with mem := m' } ∧ pages { s with mem := m' } = pages s := by
  have hself : Function.update s.procs 0 (s.procs 0) = s.procs := Function.update_eq_self 0 s.procs
  have hout : ∀ q, s.procs 0 = some q → ∀ y ∈ owned s.mem q.pgdir, m'.page y = s.mem.page y :=
    fun q hq y hy => hframe y (h.owned_not_free hq hy)
  have hkept : Accounted ⟨m', Function.update s.procs 0 (s.procs 0)⟩ ∧
      pages ⟨m', Function.update s.procs 0 (s.procs 0)⟩ = pages s := by
    refine h.exchange 0 (s.procs 0) ?_ ?_ ?_
    · intro y hy
      exact hframe y fun hc => hy (Multiset.mem_add.mpr (.inl (by simpa using hc)))
    · rw [hfree]
      cases hq : s.procs 0 with
      | none => rfl
      | some q => rw [holding, holding, owned_frame (hout q hq)]
    · intro q hq
      exact (h.sized 0 q hq).frame (hout q hq)
  rw [hself] at hkept
  exact hkept

end Accounted

/-! ## The calls -/

section Calls

variable {k : Link} {s t : Machine} {i : Fin nproc} {r : Bool}

theorem onMem_eq_ok {α : Type} {x : Prog Memory α} {a : α} (h : onMem x s = .ok (a, t)) :
    ∃ m, x s.mem = .ok (a, m) ∧ t = { s with mem := m } := by
  unfold onMem at h
  split at h
  · rename_i a' m hx
    cases h
    exact ⟨m, hx, rfl⟩
  · cases h

theorem current_eq_ok {p : Proc} (h : current i s = .ok (p, t)) : s.procs i = some p ∧ t = s := by
  unfold current at h
  obtain ⟨x, u, hx, hret⟩ := bind_eq_ok h
  obtain ⟨hval, hu⟩ := look_eq_ok hx
  cases x with
  | none => cases hret
  | some q =>
      cases hret
      exact ⟨hval.symm, hu.symm⟩

/-- What a call leaves behind: the accounts in order and no page lost, and the free pages where it fails. -/
def Settled (s t : Machine) (r : Bool) : Prop :=
  (Accounted t ∧ pages t = pages s) ∧ (r = false → (↑t.mem.freelist : Multiset Nat) = ↑s.mem.freelist)

theorem settled_refl (h : Accounted s) : Settled s s r := ⟨⟨h, rfl⟩, fun _ => rfl⟩

theorem unused_eq_some {s : Machine} (h : unused s = some i) : s.procs i = none := by
  have hfound := List.find?_some h
  simpa using hfound

theorem fork_settled (h : Accounted s)
    (hroom : unused s = none ∨ s.mem.freelist.length < 2 ∨ 13 < s.mem.freelist.length)
    (hrun : fork k i s = .ok (r, t)) : Settled s t r := by
  rw [fork] at hrun
  obtain ⟨p, u, hcur, hrun⟩ := bind_eq_ok hrun
  obtain ⟨hp, hu⟩ := current_eq_ok hcur
  rw [hu] at hrun
  obtain ⟨np, u₁, hnp, hrun⟩ := bind_eq_ok hrun
  cases hnp
  cases hslot : unused s with
  | none =>
      rw [hslot] at hrun
      cases hrun
      exact settled_refl h
  | some np =>
      rw [hslot] at hrun
      have hempty := unused_eq_some hslot
      obtain ⟨ks, u₂, hk, hrun⟩ := bind_eq_ok hrun
      obtain ⟨m₁, hk, hu₂⟩ := onMem_eq_ok hk
      rcases kalloc_cases hk with ⟨_, hks, hm₁⟩ | ⟨kstack, rest, hfree, hks, hm₁⟩
      · rw [hks, hu₂, hm₁] at hrun
        cases hrun
        exact settled_refl h
      · rw [hks, hu₂, hm₁] at hrun
        have hnd := h.nodup_free
        rw [hfree] at hnd
        have hlen : s.mem.freelist.length = rest.length + 1 := by rw [hfree, List.length_cons]
        have hroom' : rest.length = 0 ∨ 12 < rest.length := by
          rcases hroom with hc | hroom
          · rw [hslot] at hc
            cases hc
          · omega
        obtain ⟨d, u₃, hcopy, hrun⟩ := bind_eq_ok hrun
        obtain ⟨m₂, hcopy, hu₃⟩ := onMem_eq_ok hcopy
        have hbuilt := copyuvm_built (m := { s.mem with freelist := rest }) (List.nodup_cons.mp hnd).2
          (h.sized i p hp).size hroom' hcopy
        have hframe : ∀ y, y ∉ s.mem.freelist → m₂.page y = s.mem.page y := by
          intro y hy
          rw [hfree] at hy
          exact hbuilt.frame y fun hc => hy (List.mem_cons_of_mem _ hc)
        cases d with
        | none =>
            rw [hu₃] at hrun
            obtain ⟨_, u₄, hkf, hrun⟩ := bind_eq_ok hrun
            cases hrun
            obtain ⟨m₃, hkf, hu₄⟩ := onMem_eq_ok hkf
            have hm₃ := kfree_eq hkf
            have hback : (↑m₃.freelist : Multiset Nat) = ↑s.mem.freelist := by
              rw [hm₃, setPage_freelist, hfree, ← Multiset.cons_coe, ← Multiset.cons_coe,
                hbuilt.undone rfl]
            have hkept : ∀ y, y ∉ s.mem.freelist → m₃.page y = s.mem.page y := by
              intro y hy
              rw [hm₃, setPage_ne]
              · exact hframe y hy
              · rintro rfl
                exact hy (by rw [hfree]; exact List.mem_cons_self)
            rw [hu₄]
            exact ⟨h.unchanged hkept hback, fun _ => hback⟩
        | some d =>
            rw [hu₃] at hrun
            obtain ⟨_, u₄, hset, hrun⟩ := bind_eq_ok hrun
            cases hrun
            have ht := assign_eq_ok hset
            obtain ⟨hpool, n, hn, hspace⟩ := hbuilt.done d rfl
            rw [ht]
            refine ⟨?_, fun hc => absurd hc.symm Bool.false_ne_true⟩
            refine h.exchange np (some ⟨kstack, d, p.sz⟩) ?_ ?_ ?_
            · intro y hy
              exact hframe y fun hc => hy (Multiset.mem_add.mpr (.inl (by simpa using hc)))
            · rw [pool] at hpool
              change ↑m₂.freelist + owned m₂ d = (↑rest : Multiset Nat) at hpool
              rw [hempty, holding, holding, add_zero, hfree, ← Multiset.cons_coe,
                ← Multiset.singleton_add, ← hpool]
              abel
            · intro q hq
              cases hq
              refine ⟨hspace.dir, (h.sized i p hp).size, ?_⟩
              intro j hj hpres
              have hlt := (hspace.user j hj).mp hpres
              rw [hn] at hlt
              exact hlt

/-- What `sbrk` does to the memory of a process. -/
theorem growMemory_spec {m m' : Memory} {p : Proc} {n : Int32} {sz : Nat} (hnd : (pool m p.pgdir).Nodup)
    (hs : Sized m p) (hsz : n < 0 → usub p.sz n.toInt.natAbs ≠ 0 ∨ users m p.pgdir = 0)
    (hrun : growMemory k p n m = .ok (sz, m')) :
    Within p.pgdir 0 160 m m' ∧ (n ≠ 0 ∧ sz = 0 → (↑m'.freelist : Multiset Nat) = ↑m.freelist ∧
        Sized m' p) ∧ (sz ≠ 0 ∨ n = 0 → Sized m' { p with sz := sz }) := by
  have habs : ∀ j : Fin 1024, pgroundup p.sz ≤ j.val → j.val < 160 →
      ¬ Present (m.page (first m p.pgdir) j) := by
    intro j hj hlt hpres
    have hin := hs.below j hlt hpres
    omega
  have hmake : ∀ sz', Within p.pgdir 0 160 m m' → sz' ≤ usertop →
      (∀ j : Fin 1024, pgroundup sz' ≤ j.val → j.val < 160 →
        ¬ Present (m'.page (first m p.pgdir) j)) → Sized m' { p with sz := sz' } := by
    intro sz' hw htop hout
    refine ⟨hw.present hs.dir, htop, ?_⟩
    intro j hj hpres
    change Present (m'.page (first m' p.pgdir) j) at hpres
    rw [hw.first_eq] at hpres
    by_contra hge
    exact hout j (by show pgroundup sz' ≤ j.val; exact not_lt.mp hge) hj hpres
  have htop160 := pgroundup_le hs.size
  unfold growMemory at hrun
  split at hrun
  · obtain ⟨hw, hne, hzero⟩ := allocuvm_within hnd hs.dir hs.size hrun
    have hw' := hw.mono (Nat.zero_le _) le_rfl
    refine ⟨hw', ?_, ?_⟩
    · intro hc
      obtain ⟨hback, hout⟩ := hzero hc.2 habs
      exact ⟨hback, hmake p.sz hw' hs.size hout⟩
    · intro hc
      rename_i hpos
      have hn : n ≠ 0 := by
        rintro rfl
        exact absurd hpos (by decide)
      obtain ⟨hval, htop, hw'', hin⟩ := hne (hc.resolve_right hn)
      refine hmake sz hw' htop ?_
      intro j hj hlt
      have hmono : pgroundup p.sz ≤ pgroundup sz :=
        pgroundup_mono (by rw [hval]; exact le_max_right _ _)
      rw [hw''.words j (by omega)]
      exact habs j (by omega) hlt
  · split at hrun
    · rename_i hneg
      obtain ⟨hval, hw, hgone⟩ := deallocuvm_within hs.size hnd hs.dir hrun
      have hw' := hw.mono (Nat.zero_le _) htop160
      have hout : ∀ j : Fin 1024, pgroundup sz ≤ j.val → j.val < 160 →
          ¬ Present (m'.page (first m p.pgdir) j) := by
        intro j hj hlt
        by_cases hin : pgroundup (usub p.sz n.toInt.natAbs) ≤ j.val ∧ j.val < pgroundup p.sz
        · exact hgone j hin.1 hin.2
        · rw [hw.words j hin]
          refine habs j ?_ hlt
          by_contra hlt'
          refine hin ⟨?_, not_le.mp hlt'⟩
          rcases le_total (usub p.sz n.toInt.natAbs) p.sz with hle | hle
          · rw [min_eq_left hle] at hval
            rw [← hval]
            exact hj
          · rw [min_eq_right hle] at hval
            rw [hval] at hj
            exact absurd hj hlt'
      have hsmall : sz ≤ usertop := by
        rw [hval]
        exact (min_le_right _ _).trans hs.size
      refine ⟨hw', ?_, fun _ => hmake sz hw' hsmall hout⟩
      intro hc
      -- Only a process of size 0 or without pages gets 0 back.
      have hnone : ∀ j : Fin 1024, pgroundup (usub p.sz n.toInt.natAbs) ≤ j.val → j.val < pgroundup p.sz →
          ¬ Present (m.page (first m p.pgdir) j) := by
        intro j hlo hhi hpres
        rcases hsz hneg with hne | hempty
        · have hmin := hval.symm.trans hc.2
          have hzero : p.sz = 0 := by omega
          rw [hzero] at hhi
          exact absurd hhi (Nat.not_lt_zero _)
        · refine Multiset.notMem_zero (pteAddr (m.page (first m p.pgdir) j)) ?_
          rw [← hempty, users, if_pos hs.dir]
          exact mem_userTargets.mpr ⟨j, by omega, hpres, rfl⟩
      refine ⟨hw.free_eq hnone hgone, hmake p.sz hw' hs.size ?_⟩
      intro j hj hlt
      rw [hw.words j (by omega)]
      exact habs j hj hlt
    · rename_i hpos hneg
      cases hrun
      refine ⟨.refl .., ?_, fun _ => hs⟩
      intro hc
      refine absurd ?_ hc.1
      exact Int32.le_antisymm (Int32.not_lt.mp hpos) (Int32.not_lt.mp hneg)

theorem sbrk_settled {n : Int32} (h : Accounted s)
    (hsz : ∀ p, s.procs i = some p → n < 0 → usub p.sz n.toInt.natAbs ≠ 0 ∨ users s.mem p.pgdir = 0)
    (hrun : growproc k i n s = .ok (r, t)) : Settled s t r := by
  rw [growproc] at hrun
  obtain ⟨p, u, hcur, hrun⟩ := bind_eq_ok hrun
  obtain ⟨hp, hu⟩ := current_eq_ok hcur
  rw [hu] at hrun
  obtain ⟨sz, u₁, hgrow, hrun⟩ := bind_eq_ok hrun
  obtain ⟨m, hgrow, hu₁⟩ := onMem_eq_ok hgrow
  obtain ⟨hw, hfail, hgood⟩ := growMemory_spec (h.nodup_pool hp) (h.sized i p hp) (hsz p hp) hgrow
  have hexchange : ∀ q : Proc, q.kstack = p.kstack → q.pgdir = p.pgdir → Sized m q →
      Accounted ⟨m, Function.update s.procs i (some q)⟩ ∧
        pages ⟨m, Function.update s.procs i (some q)⟩ = pages s := by
    intro q hks hpd hq
    refine h.exchange i (some q) ?_ ?_ ?_
    · intro y hy
      refine hw.moved.frame y fun hc => hy ?_
      rw [hp, holding]
      rcases Multiset.mem_add.mp hc with hc | hc
      · exact Multiset.mem_add.mpr (.inl hc)
      · exact Multiset.mem_add.mpr (.inr (Multiset.mem_add.mpr (.inr hc)))
    · have hpool := hw.moved.pool
      rw [pool, pool] at hpool
      rw [hp, holding, holding, hks, hpd, add_left_comm, hpool, add_left_comm]
    · intro q' hq'
      cases hq'
      exact hq
  rw [hu₁] at hrun
  split at hrun
  · rename_i hc
    cases hrun
    obtain ⟨hback, hsized⟩ := hfail hc
    have hacc := hexchange p rfl rfl hsized
    have hself : Function.update s.procs i (some p) = s.procs := by
      rw [← hp]
      exact Function.update_eq_self i s.procs
    rw [hself] at hacc
    exact ⟨hacc, fun _ => hback⟩
  · rename_i hc
    obtain ⟨_, u₂, hset, hrun⟩ := bind_eq_ok hrun
    cases hrun
    have ht := assign_eq_ok hset
    have hor : sz ≠ 0 ∨ n = 0 := by
      by_contra hno
      push Not at hno
      exact hc ⟨hno.2, hno.1⟩
    rw [ht]
    exact ⟨hexchange { p with sz := sz } rfl rfl (hgood hor),
      fun hc => absurd hc.symm Bool.false_ne_true⟩

theorem exec_settled {ip : Option Binary} {argv : List (List UInt8)} (h : Accounted s)
    (hroom : ∀ bin phdrs, ip = some bin → bin.phdrs = some phdrs → s.mem.freelist.length = 0 ∨
      12 < s.mem.freelist.length ∧ AllStay bin.readi (s.mem.freelist.length - 13) 0 phdrs)
    (hrun : exec k i ip argv s = .ok (r, t)) : Settled s t r := by
  rw [exec] at hrun
  obtain ⟨p, u, hcur, hrun⟩ := bind_eq_ok hrun
  obtain ⟨hp, hu⟩ := current_eq_ok hcur
  rw [hu] at hrun
  cases ip with
  | none =>
      cases hrun
      exact settled_refl h
  | some bin =>
      cases hph : bin.phdrs with
      | none =>
          simp only [hph] at hrun
          cases hrun
          exact settled_refl h
      | some phdrs =>
          simp only [hph] at hrun
          have hroom' := hroom bin phdrs rfl hph
          obtain ⟨x, u₁, hset, hrun⟩ := bind_eq_ok hrun
          obtain ⟨m₁, hset, hu₁⟩ := onMem_eq_ok hset
          obtain ⟨hframe, hsome, hnone⟩ := setupkvm_spec h.nodup_free hset
          rw [hu₁] at hrun
          cases x with
          | none =>
              cases hrun
              rcases hnone rfl with ⟨_, hsame⟩ | ⟨hpos, hle⟩
              · rw [hsame]
                exact settled_refl h
              · omega
          | some d =>
              obtain ⟨hpool, hblank⟩ := hsome d rfl
              have hlen := hblank.length_eq hpool
              have hfull : AllStay bin.readi m₁.freelist.length 0 phdrs := by
                rcases hroom' with hz | ⟨_, hin⟩
                · omega
                · rwa [← hlen, Nat.add_sub_cancel] at hin
              obtain ⟨y, u₂, hbuild, hrun⟩ := bind_eq_ok hrun
              obtain ⟨m₂, hbuild, hu₂⟩ := onMem_eq_ok hbuild
              obtain ⟨hw, hres⟩ := Space.buildImage_within hfull hblank.space hbuild
              obtain ⟨hframe₂, hpool₂⟩ := moved_frame hframe hpool hw.moved
              rw [hu₂] at hrun
              cases y with
              | none =>
                  obtain ⟨_, u₃, hfv, hrun⟩ := bind_eq_ok hrun
                  cases hrun
                  obtain ⟨m₃, hfv, hu₃⟩ := onMem_eq_ok hfv
                  have hbuilt : Built s.mem m₃ none fun _ => True :=
                    built_of_freevm hframe₂ hpool₂ (hw.present hblank.dir) h.nodup_free hfv
                  rw [hu₃]
                  exact ⟨h.unchanged hbuilt.frame (hbuilt.undone rfl), fun _ => hbuilt.undone rfl⟩
              | some sz =>
                  obtain ⟨htop, hspace⟩ := hres sz rfl
                  obtain ⟨_, u₃, hset', hrun⟩ := bind_eq_ok hrun
                  have hu₃ := assign_eq_ok hset'
                  obtain ⟨_, u₄, hfv, hrun⟩ := bind_eq_ok hrun
                  cases hrun
                  rw [hu₃] at hfv
                  obtain ⟨m₃, hfv, hu₄⟩ := onMem_eq_ok hfv
                  -- The old pages are as they were, and the new ones stay so.
                  have hold : owned m₂ p.pgdir = owned s.mem p.pgdir :=
                    owned_frame fun y hy => hframe₂ y (h.owned_not_free hp hy)
                  have hdir : Present (m₂.page p.pgdir 0) := by
                    rw [hframe₂ _ (h.owned_not_free hp (dir_mem_owned _ _))]
                    exact (h.sized i p hp).dir
                  have hnd : (↑s.mem.freelist + owned s.mem p.pgdir : Multiset Nat).Nodup := h.nodup_pool hp
                  have hall : pool m₂ p.pgdir + owned m₂ d = ↑s.mem.freelist + owned s.mem p.pgdir := by
                    rw [← hpool₂, pool, pool, hold]
                    abel
                  rw [← hall] at hnd
                  obtain ⟨hback, hkeep⟩ := freevm_free (Multiset.nodup_add.mp hnd).1 hdir hfv
                  have hnew : ∀ y ∈ owned m₂ d, m₃.page y = m₂.page y := fun y hy =>
                    hkeep y fun hc => Multiset.disjoint_left.mp (Multiset.nodup_add.mp hnd).2.2 hc hy
                  have hsized₂ : Sized m₂ { p with pgdir := d, sz := sz } :=
                    ⟨hspace.dir, htop, fun j hj hpres => (hspace.user j hj).mp hpres⟩
                  rw [hu₄]
                  refine ⟨?_, fun hc => absurd hc.symm Bool.false_ne_true⟩
                  refine h.exchange i (some { p with pgdir := d, sz := sz }) ?_ ?_ ?_
                  · intro y hy
                    rw [hp, holding] at hy
                    have hfree : y ∉ s.mem.freelist := fun hc =>
                      hy (Multiset.mem_add.mpr (.inl (by simpa using hc)))
                    have hown : y ∉ owned s.mem p.pgdir := fun hc =>
                      hy (Multiset.mem_add.mpr (.inr (Multiset.mem_add.mpr (.inr hc))))
                    have hout : y ∉ pool m₂ p.pgdir := by
                      intro hc
                      have hin : y ∈ (↑s.mem.freelist + owned s.mem p.pgdir : Multiset Nat) := by
                        rw [← hall]
                        exact Multiset.mem_add.mpr (.inl hc)
                      rcases Multiset.mem_add.mp hin with hin | hin
                      · exact hfree (by simpa using hin)
                      · exact hown hin
                    rw [hkeep y hout, hframe₂ y hfree]
                  · rw [hp, holding, holding, hback, owned_frame hnew, add_left_comm, hall, add_left_comm]
                  · intro q hq
                    cases hq
                    exact hsized₂.frame hnew

theorem wait_settled (h : Accounted s) (hrun : wait k i s = .ok (r, t)) : Settled s t r := by
  rw [wait] at hrun
  obtain ⟨p, u, hcur, hrun⟩ := bind_eq_ok hrun
  obtain ⟨hp, hu⟩ := current_eq_ok hcur
  rw [hu] at hrun
  obtain ⟨_, u₁, hkf, hrun⟩ := bind_eq_ok hrun
  obtain ⟨m₁, hkf, hu₁⟩ := onMem_eq_ok hkf
  have hm₁ := kfree_eq hkf
  rw [hu₁] at hrun
  obtain ⟨_, u₂, hfv, hrun⟩ := bind_eq_ok hrun
  obtain ⟨m₂, hfv, hu₂⟩ := onMem_eq_ok hfv
  rw [hu₂] at hrun
  obtain ⟨_, u₃, hset, hrun⟩ := bind_eq_ok hrun
  cases hrun
  have ht := assign_eq_ok hset
  have hnd := h.nodup_pair i
  rw [hp, holding, add_left_comm] at hnd
  have hks : p.kstack ∉ owned s.mem p.pgdir := fun hc =>
    Multiset.disjoint_left.mp (Multiset.nodup_add.mp hnd).2.2 (Multiset.mem_singleton_self _)
      (Multiset.mem_add.mpr (.inr hc))
  have hsame : ∀ y ∈ owned s.mem p.pgdir, m₁.page y = s.mem.page y := by
    intro y hy
    rw [hm₁]
    refine setPage_ne ?_
    rintro rfl
    exact hks hy
  have hpool : pool m₁ p.pgdir = {p.kstack} + (↑s.mem.freelist + owned s.mem p.pgdir) := by
    rw [pool, owned_frame hsame, hm₁, setPage_freelist, ← Multiset.cons_coe, ← Multiset.singleton_add,
      add_assoc]
  have hdir : Present (m₁.page p.pgdir 0) := by
    rw [hsame _ (dir_mem_owned _ _)]
    exact (h.sized i p hp).dir
  obtain ⟨hback, hkeep⟩ := freevm_free (by rw [hpool]; exact hnd) hdir hfv
  rw [ht]
  refine ⟨?_, fun hc => absurd hc.symm Bool.false_ne_true⟩
  refine h.exchange i none ?_ ?_ fun q hq => by simp at hq
  · intro y hy
    rw [hp, holding, add_left_comm] at hy
    rw [hkeep y (by rw [hpool]; exact hy), hm₁]
    refine setPage_ne ?_
    rintro rfl
    exact hy (Multiset.mem_add.mpr (.inl (Multiset.mem_singleton_self _)))
  · rw [hp, holding, holding, hback, hpool, add_zero, add_left_comm]

end Calls

/-! ## Every call -/

/-- The calls that give back what they take: `setupkvm` gets its page directory and all page tables or
nothing at all, segments are loaded into pages that have been mapped, and `sbrk` does not shrink a process with
pages to 0. -/
def Spared (s : Machine) : Call → Prop
  | .fork _ => unused s = none ∨ s.mem.freelist.length < 2 ∨ 13 < s.mem.freelist.length
  | .sbrk i n => ∀ p, s.procs i = some p → n < 0 →
      usub p.sz n.toInt.natAbs ≠ 0 ∨ users s.mem p.pgdir = 0
  | .exec _ ip _ => ∀ bin phdrs, ip = some bin → bin.phdrs = some phdrs →
      s.mem.freelist.length = 0 ∨
        12 < s.mem.freelist.length ∧ AllStay bin.readi (s.mem.freelist.length - 13) 0 phdrs
  | .wait _ => True

theorem execute_settled {k : Link} {s t : Machine} {c : Call} {r : Bool} (h : Accounted s)
    (hok : Spared s c) (hrun : execute k c s = .ok (r, t)) : Settled s t r := by
  cases c with
  | fork i => exact fork_settled h hok hrun
  | sbrk i n => exact sbrk_settled h hok hrun
  | exec i ip argv => exact exec_settled h hok hrun
  | wait j => exact wait_settled h hrun

/-- A kernel of 280 pages. -/
def smallLink : Link := ⟨263, 280, by decide, by decide⟩

/-- The page directory and the page table of a process with one page. -/
def smallPage (p : Nat) : Words :=
  if p = 2001 then Function.update (fun _ => 0) 0 (pte 2002 6)
  else if p = 2002 then Function.update (fun _ => 0) 0 (pte 2003 6)
  else fun _ => 0

/-- A machine with one process. -/
def smallMachine (free : List Nat) : Machine where
  mem := ⟨free, smallPage⟩
  procs := fun i => if i.val = 0 then some ⟨2000, 2001, 4096⟩ else none

theorem smallMachine_owned (free : List Nat) : owned ⟨free, smallPage⟩ 2001 = {2001} + {2002} + {2003} := by
  have hdir : smallPage 2001 = Function.update (fun _ => 0) 0 (pte 2002 6) := if_pos rfl
  have htab : smallPage 2002 = Function.update (fun _ => 0) 0 (pte 2003 6) := rfl
  have htables : tables ⟨free, smallPage⟩ 2001 = {2002} := by
    have hsum := sum_update_add (fun (_ : Fin 1024) w => target w) (fun _ => 0) 0 (pte 2002 6)
    unfold tables
    show ∑ i, target (smallPage 2001 i) = _
    rw [hdir]
    simpa [target_pte] using hsum
  have husers : userTargets (smallPage 2002) = {2003} := by
    have hsum := sum_update_add (fun (j : Fin 1024) w => if j.val < 160 then target w else 0) (fun _ => 0)
      0 (pte 2003 6)
    unfold userTargets
    rw [htab]
    simpa [target_pte] using hsum
  have hentry : smallPage 2001 0 = pte 2002 6 := by rw [hdir, Function.update_self]
  have husers' : users ⟨free, smallPage⟩ 2001 = {2003} := by
    simp only [users, first, hentry]
    rw [if_pos (pte_present rfl), pteAddr_pte (by decide), husers]
  rw [owned, htables, husers']

theorem smallMachine_accounted {free : List Nat} (h : (free ++ [2000, 2001, 2002, 2003]).Nodup) :
    Accounted (smallMachine free) := by
  have hdir : smallPage 2001 0 = pte 2002 6 := by
    rw [smallPage, if_pos rfl, Function.update_self]
  refine ⟨?_, ?_⟩
  · have hsum : ∑ i, holding (smallMachine free).mem ((smallMachine free).procs i) =
        {2000} + ({2001} + {2002} + {2003}) := by
      rw [Finset.sum_eq_single (⟨0, by decide⟩ : Fin nproc)]
      · exact congrArg ({2000} + ·) (smallMachine_owned free)
      · intro i _ hi
        have hne : i.val ≠ 0 := fun hc => hi (Fin.ext hc)
        show holding _ (if i.val = 0 then _ else none) = 0
        rw [if_neg hne, holding]
      · intro hc
        exact absurd (Finset.mem_univ _) hc
    have hpages : pages (smallMachine free) = ((free ++ [2000, 2001, 2002, 2003] : List Nat) : Multiset Nat) := by
      unfold pages
      rw [hsum, ← Multiset.coe_add]
      rfl
    rw [hpages]
    exact h
  · intro i p hp
    change (if i.val = 0 then _ else none) = some p at hp
    split at hp
    · cases hp
      refine ⟨?_, by decide, ?_⟩
      · show Present (smallPage 2001 0)
        rw [hdir]
        exact pte_present rfl
      · intro j hj hpres
        have hfirst : first (smallMachine free).mem 2001 = 2002 := by
          show pteAddr (smallPage 2001 0) = 2002
          rw [hdir, pteAddr_pte (by decide)]
        rw [hfirst] at hpres
        by_cases hj0 : j = 0
        · subst hj0
          decide
        · have htab : (smallMachine free).mem.page 2002 = Function.update (fun _ => 0) 0 (pte 2003 6) := rfl
          rw [htab, Function.update_of_ne hj0] at hpres
          exact absurd hpres (by decide)
    · cases hp

theorem smallMachine_fork : execute smallLink (.fork ⟨0, by decide⟩) (smallMachine []) =
    .ok (false, smallMachine []) := rfl

end Vm
end Xv6
end LfsXv6
