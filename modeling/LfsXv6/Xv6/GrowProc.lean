import LfsXv6.Xv6.OutOfMemory

/-!
# GrowProc — what `sbrk` does to the memory of a process

`growproc` maps or unmaps pages and then stores the new size.  It takes a result of 0 for a failure, and
it computes the new size in unsigned arithmetic.  So a process that gives back exactly what it has is
told that this failed, and one that gives back more than it has is told that it did not.
-/

namespace LfsXv6
namespace Xv6
namespace Vm

open Lib Prog

/-! ## User pages -/

/-- User page `j` of an address space: its words, where it is mapped. -/
def userPage (m : Memory) (d : Nat) (j : Fin 1024) : Option Words :=
  if Present (m.page (first m d) j) then some (m.page (pteAddr (m.page (first m d) j))) else none

/-- Memory behind the kernel, which `kfree` takes. -/
structure Ram (k : Link) (p : Nat) : Prop where
  pos : 0 < p
  kernel : k.stop ≤ p
  top : p < phystop / pgsize

/-- All pages that are free or that a directory owns are memory behind the kernel, and none is there
twice. -/
structure Tidy (k : Link) (m : Memory) (d : Nat) : Prop where
  nodup : (pool m d).Nodup
  dir : Present (m.page d 0)
  ram : ∀ p ∈ pool m d, Ram k p

section UserPages

variable {k : Link} {m t : Memory} {d p v a b : Nat} {j j' : Fin 1024} {w : Words} {l : List Nat}

theorem Tidy.within (h : Tidy k m d) (hw : Within d a b m t) : Tidy k t d :=
  ⟨hw.nodup h.nodup, hw.present h.dir, fun p hp => h.ram p (by rwa [hw.moved.pool] at hp)⟩

theorem userPage_eq_none : userPage m d j = none ↔ ¬ Present (m.page (first m d) j) := by
  unfold userPage
  split
  · rename_i hp
    exact iff_of_false (by simp) (not_not.mpr hp)
  · rename_i hp
    exact iff_of_true rfl hp

/-- Every entry for user memory has `PTE_U`. -/
def Marked (m : Memory) (d : Nat) : Prop :=
  ∀ j : Fin 1024, j.val < 160 → Present (m.page (first m d) j) → User (m.page (first m d) j)

/-- The page table for user memory after the change of an entry, and of the page `p` that it is
about. -/
theorem put_table (j : Fin 1024) (v : Nat) (w : Words) (l : List Nat) (hd : first m d ≠ d)
    (hp : first m d ≠ p) (hpd : p ≠ d) :
    let u := (({ m with freelist := l } : Memory).setPage p w).setWord (first m d) j v
    first u d = first m d ∧ u.page (first m d) = Function.update (m.page (first m d)) j v := by
  intro u
  have hdir : u.page d = m.page d := by rw [setWord_ne hd.symm, setPage_ne hpd.symm]
  refine ⟨?_, ?_⟩
  · unfold first
    rw [hdir]
  · rw [setWord_self, setPage_ne hp]

theorem marked_put (hd : first m d ≠ d) (hp : first m d ≠ p) (hpd : p ≠ d) (hv : Present v → User v)
    (h : Marked m d) :
    Marked ((({ m with freelist := l } : Memory).setPage p w).setWord (first m d) j v) d := by
  obtain ⟨hfirst, htable⟩ := put_table j v w l hd hp hpd
  intro j' hj' hpres
  rw [hfirst, htable] at hpres ⊢
  by_cases hjj : j' = j
  · subst hjj
    rw [Function.update_self] at hpres ⊢
    exact hv hpres
  · rw [Function.update_of_ne hjj] at hpres ⊢
    exact h j' hj' hpres

/-- An entry for user memory changes, and the page `p` that it is about; the other user pages are as
they were. -/
theorem userPage_put (hd : first m d ≠ d) (hp : first m d ≠ p) (hpd : p ≠ d)
    (hapart : ∀ j', j'.val < 160 → j' ≠ j → Present (m.page (first m d) j') →
      pteAddr (m.page (first m d) j') ≠ p ∧ pteAddr (m.page (first m d) j') ≠ first m d) :
    let u := (({ m with freelist := l } : Memory).setPage p w).setWord (first m d) j v
    (∀ j', j'.val < 160 → j' ≠ j → userPage u d j' = userPage m d j') ∧
      (¬ Present v → userPage u d j = none) ∧
      (Present v → pteAddr v = p → userPage u d j = some w) := by
  intro u
  obtain ⟨hfirst, htable⟩ : first u d = first m d ∧
      u.page (first m d) = Function.update (m.page (first m d)) j v := put_table j v w l hd hp hpd
  refine ⟨?_, ?_, ?_⟩
  · intro j' hlt hne
    unfold userPage
    rw [hfirst, htable, Function.update_of_ne hne]
    split
    · rename_i hpres
      obtain ⟨hnp, hnf⟩ := hapart j' hlt hne hpres
      rw [setWord_ne hnf, setPage_ne hnp]
    · rfl
  · intro habs
    rw [userPage_eq_none, hfirst, htable, Function.update_self]
    exact habs
  · intro hpres haddr
    unfold userPage
    rw [hfirst, htable, Function.update_self, if_pos hpres, haddr, setWord_ne hp.symm, setPage_self]

end UserPages

/-! ## Mapping and unmapping -/

section Turns

variable {k : Link} {m : Memory} {d vp p : Nat} {rest : List Nat} {w : Words}

theorem kfree_ok (h : Ram k p) : kfree k p m =
    .ok ((), ({ m with freelist := p :: m.freelist } : Memory).setPage p fun _ => 0x01010101) := by
  have hkernel := h.kernel
  have htop := h.top
  unfold kfree
  rw [if_neg (by omega)]
  rfl

/-- A turn of `deallocuvm`. -/
theorem freePage_run (h : Tidy k m d) (hvp : vp < 160) :
    ∃ t, freePage k d vp m = .ok ((), t) ∧ Within d vp (vp + 1) m t ∧ (Marked m d → Marked t d) ∧
      ∀ j : Fin 1024, j.val < 160 → userPage t d j = if j.val = vp then none else userPage m d j := by
  have hjp : ∀ {j : Fin 1024}, j.val = vp → j = ptx vp := fun hj =>
    Fin.ext (by rw [ptx_user hvp]; exact hj)
  have hlt : (ptx vp).val < 160 := by rw [ptx_user hvp]; exact hvp
  have hwalk : walkpgdir d vp false m = .ok (some (first m d, ptx vp), m) := by
    rw [walkpgdir_found (by rw [pdx_user hvp]; exact h.dir), pdx_user hvp]
    rfl
  by_cases hp : Present (m.page (first m d) (ptx vp))
  · have hram := h.ram _ (user_mem_pool h.dir hlt hp)
    have hmem : pteAddr (m.page (first m d) (ptx vp)) ∈ users m d := by
      rw [users, if_pos h.dir]
      exact mem_userTargets.mpr ⟨ptx vp, hlt, hp, rfl⟩
    have hrun : freePage k d vp m = .ok ((), (({ m with
        freelist := pteAddr (m.page (first m d) (ptx vp)) :: m.freelist } : Memory).setPage
          (pteAddr (m.page (first m d) (ptx vp))) fun _ => 0x01010101).setWord (first m d) (ptx vp) 0) := by
      rw [freePage, bind_of_ok hwalk]
      simp only
      rw [bind_of_ok (x := look fun u : Memory => u.page (first m d) (ptx vp)) (s := m) rfl, if_pos hp,
        if_neg hram.pos.ne', bind_of_ok (kfree_ok hram)]
      rfl
    obtain ⟨hw, -⟩ := freePage_within hvp h.nodup h.dir hrun
    have hnd := owned_nodup h.nodup
    obtain ⟨hother, hself, -⟩ := userPage_put (m := m) (d := d) (j := ptx vp)
      (p := pteAddr (m.page (first m d) (ptx vp))) (v := 0) (w := fun _ => 0x01010101)
      (l := pteAddr (m.page (first m d) (ptx vp)) :: m.freelist) (table_ne_dir hnd h.dir)
      (user_ne_table hnd hmem h.dir).symm (user_ne_dir hnd hmem) (by
        intro j' hlt' hne hpres
        refine ⟨fun heq => hne (user_inj hnd h.dir hlt' hlt hpres hp heq), ?_⟩
        have hmem' : pteAddr (m.page (first m d) j') ∈ users m d := by
          rw [users, if_pos h.dir]
          exact mem_userTargets.mpr ⟨j', hlt', hpres, rfl⟩
        exact user_ne_table hnd hmem' h.dir)
    refine ⟨_, hrun, hw, ?_, ?_⟩
    · exact marked_put (table_ne_dir hnd h.dir) (user_ne_table hnd hmem h.dir).symm
        (user_ne_dir hnd hmem) fun hc => absurd hc (by decide)
    intro j hj
    by_cases hjv : j.val = vp
    · rw [if_pos hjv, hjp hjv]
      exact hself (by decide)
    · rw [if_neg hjv]
      exact hother j hj fun hc => hjv (by rw [hc, ptx_user hvp])
  · have hrun : freePage k d vp m = .ok ((), m) := by
      rw [freePage, bind_of_ok hwalk]
      simp only
      rw [bind_of_ok (x := look fun u : Memory => u.page (first m d) (ptx vp)) (s := m) rfl, if_neg hp]
      rfl
    refine ⟨m, hrun, .refl .., id, ?_⟩
    intro j _
    split
    · rename_i hjv
      rw [hjp hjv]
      exact userPage_eq_none.mpr hp
    · rfl

/-- A free page is filled and mapped. -/
theorem mapUser_run (h : Tidy k m d) (hvp : vp < 160) (hfree : m.freelist = p :: rest)
    (habs : ¬ Present (m.page (first m d) (ptx vp))) :
    ∃ t, mappages d (pgsize * vp) pgsize (pgsize * p) 6
        (({ m with freelist := rest } : Memory).setPage p w) = .ok (true, t) ∧
      Within d vp (vp + 1) m t ∧ t.freelist = rest ∧ (Marked m d → Marked t d) ∧
      ∀ j : Fin 1024, j.val < 160 → userPage t d j = if j.val = vp then some w else userPage m d j := by
  have hnd := owned_nodup h.nodup
  have hfresh : p ∉ owned m d :=
    free_not_owned h.nodup (by rw [hfree]; exact List.mem_cons_self)
  have hpd : p ≠ d := by
    rintro rfl
    exact hfresh (by simp [owned])
  have hfp : first m d ≠ p := by
    rintro rfl
    exact hfresh (first_mem_owned h.dir)
  have hdir : (({ m with freelist := rest } : Memory).setPage p w).page d = m.page d :=
    setPage_ne hpd.symm
  have htable : (({ m with freelist := rest } : Memory).setPage p w).page (first m d) =
      m.page (first m d) := setPage_ne hfp
  have habs' : ¬ Present ((({ m with freelist := rest } : Memory).setPage p w).page (first m d) (ptx vp)) := by
    rwa [htable]
  have hwalk : walkpgdir d vp true (({ m with freelist := rest } : Memory).setPage p w) =
      .ok (some (first m d, ptx vp), ({ m with freelist := rest } : Memory).setPage p w) := by
    rw [walkpgdir_found (by rw [pdx_user hvp, hdir]; exact h.dir), pdx_user hvp, hdir]
    rfl
  have hrun : mappages d (pgsize * vp) pgsize (pgsize * p) 6
      (({ m with freelist := rest } : Memory).setPage p w) = .ok (true,
        (({ m with freelist := rest } : Memory).setPage p w).setWord (first m d) (ptx vp) (pte p 6)) := by
    rw [mappages_user hvp, mapPage, bind_of_ok hwalk]
    simp only
    rw [bind_of_ok (x := look fun u : Memory => u.page (first m d) (ptx vp))
      (s := ({ m with freelist := rest } : Memory).setPage p w) rfl, if_neg habs']
    rfl
  obtain ⟨-, hw, -⟩ := mapUser_within hvp h.nodup h.dir hfree hrun
  have hmem : ∀ j : Fin 1024, j.val < 160 → Present (m.page (first m d) j) →
      pteAddr (m.page (first m d) j) ∈ users m d := by
    intro j hj hp
    rw [users, if_pos h.dir]
    exact mem_userTargets.mpr ⟨j, hj, hp, rfl⟩
  obtain ⟨hother, -, hself⟩ := userPage_put (m := m) (d := d) (j := ptx vp) (p := p) (v := pte p 6)
    (w := w) (l := rest) (table_ne_dir hnd h.dir) hfp hpd (by
      intro j hlt _ hpres
      refine ⟨?_, user_ne_table hnd (hmem j hlt hpres) h.dir⟩
      rintro rfl
      exact hfresh (Multiset.mem_add.mpr (.inr (hmem j hlt hpres))))
  refine ⟨_, hrun, hw, rfl, marked_put (table_ne_dir hnd h.dir) hfp hpd fun _ => ?_, ?_⟩
  · simp only [User, pte]
    omega
  intro j hj
  by_cases hjv : j.val = vp
  · have hjp : j = ptx vp := Fin.ext (by rw [ptx_user hvp]; exact hjv)
    rw [if_pos hjv, hjp]
    exact hself (pte_present rfl) (pteAddr_pte (by decide))
  · rw [if_neg hjv]
    exact hother j hj fun hc => hjv (by rw [hc, ptx_user hvp])

end Turns

/-! ## Shrinking and growing -/

section Loops

variable {k : Link} {d : Nat}

theorem freePages_run {n a : Nat} {m : Memory} (h : Tidy k m d) (hn : a + n ≤ 160) :
    ∃ t, each (freePage k d) (List.range' a n) m = .ok ((), t) ∧ Within d a (a + n) m t ∧
      (Marked m d → Marked t d) ∧ ∀ j : Fin 1024, j.val < 160 →
        userPage t d j = if a ≤ j.val ∧ j.val < a + n then none else userPage m d j := by
  induction n generalizing a m with
  | zero =>
      refine ⟨m, rfl, .refl .., id, ?_⟩
      intro j _
      rw [if_neg (by omega)]
  | succ n ih =>
      obtain ⟨u, hone, hw, hmark, hview⟩ := freePage_run h (by omega : a < 160)
      obtain ⟨t, hrest, hw', hmark', hview'⟩ := ih (h.within hw) (by omega : a + 1 + n ≤ 160)
      refine ⟨t, ?_, (hw.mono le_rfl (by omega)).trans (hw'.mono (by omega) (by omega)),
        fun hm => hmark' (hmark hm), ?_⟩
      · rw [List.range'_succ, each, bind_of_ok hone]
        exact hrest
      · intro j hj
        rw [hview' j hj, hview j hj]
        by_cases hja : j.val = a
        · rw [if_neg (by omega), if_pos hja, if_pos (by omega)]
        · rw [if_neg hja]
          by_cases hin : a + 1 ≤ j.val ∧ j.val < a + 1 + n
          · rw [if_pos hin, if_pos (by omega)]
          · rw [if_neg hin, if_neg (by omega)]

/-- `deallocuvm` unmaps the pages between the two sizes. -/
theorem deallocuvm_run {oldsz : Nat} {m : Memory} (h : Tidy k m d) (newsz : Nat) (hold : oldsz ≤ usertop) :
    ∃ t, deallocuvm k d oldsz newsz m = .ok (min newsz oldsz, t) ∧
      Within d (pgroundup newsz) (pgroundup oldsz) m t ∧ (Marked m d → Marked t d) ∧
      ∀ j : Fin 1024, j.val < 160 → userPage t d j =
        if pgroundup newsz ≤ j.val ∧ j.val < pgroundup oldsz then none else userPage m d j := by
  unfold deallocuvm
  split
  · rename_i hge
    have hmono := pgroundup_mono hge
    refine ⟨m, ?_, .refl .., id, ?_⟩
    · rw [min_eq_right hge]
      rfl
    · intro j _
      rw [if_neg (by omega)]
  · rename_i hlt
    have hlt' : newsz ≤ oldsz := by omega
    have hmono := pgroundup_mono hlt'
    have htop := pgroundup_le hold
    have hsum : pgroundup newsz + (pgroundup oldsz - pgroundup newsz) = pgroundup oldsz := by omega
    obtain ⟨t, hrun, hw, hmark, hview⟩ := freePages_run h (by omega :
      pgroundup newsz + (pgroundup oldsz - pgroundup newsz) ≤ 160)
    rw [hsum] at hw hview
    refine ⟨t, ?_, hw, hmark, hview⟩
    rw [bind_of_ok hrun, min_eq_left hlt']
    rfl

/-- The loop of `allocuvm` maps pages of zeroes; where it runs out of memory it unmaps everything from
the old size on. -/
theorem allocLoop_run {oldsz newsz n vp : Nat} {m : Memory} (h : Tidy k m d) (hnew : newsz ≤ usertop)
    (hvp : vp + n = pgroundup newsz) (hold : pgroundup oldsz ≤ vp)
    (habs : ∀ j : Fin 1024, vp ≤ j.val → j.val < pgroundup newsz → userPage m d j = none) :
    ∃ r t, allocLoop k d oldsz newsz n vp m = .ok (r, t) ∧
      Within d (pgroundup oldsz) (pgroundup newsz) m t ∧ (Marked m d → Marked t d) ∧
      (r = true ↔ n ≤ m.freelist.length) ∧
      (r = true → ∀ j : Fin 1024, j.val < 160 → userPage t d j =
        if vp ≤ j.val ∧ j.val < pgroundup newsz then some fun _ => 0 else userPage m d j) ∧
      (r = false → ∀ j : Fin 1024, j.val < 160 → userPage t d j =
        if pgroundup oldsz ≤ j.val ∧ j.val < pgroundup newsz then none else userPage m d j) := by
  induction n generalizing vp m with
  | zero =>
      refine ⟨true, m, rfl, .refl .., id, iff_of_true rfl (Nat.zero_le _), fun _ j _ => ?_,
        fun hc => absurd hc.symm Bool.false_ne_true⟩
      rw [if_neg (by omega)]
  | succ n ih =>
      have htop := pgroundup_le hnew
      cases hfree : m.freelist with
      | nil =>
          obtain ⟨t, hde, hw, hmark, hview⟩ := deallocuvm_run h oldsz hnew
          have hk : kalloc m = .ok (none, m) := by
            unfold kalloc
            rw [hfree]
          refine ⟨false, t, ?_, hw, hmark, iff_of_false Bool.false_ne_true (Nat.not_succ_le_zero n),
            fun hc => absurd hc Bool.false_ne_true, fun _ => hview⟩
          rw [allocLoop, bind_of_ok hk]
          simp only
          rw [bind_of_ok hde]
          rfl
      | cons p rest =>
          have hk : kalloc m = .ok (some p, { m with freelist := rest }) := by
            unfold kalloc
            rw [hfree]
          have habsent : ¬ Present (m.page (first m d) (ptx vp)) := by
            refine userPage_eq_none.mp (habs (ptx vp) ?_ ?_) <;> rw [ptx_user (by omega)]
            omega
          obtain ⟨u, hmap, hw, hlist, hmark, hview⟩ := mapUser_run (w := fun _ => 0) h (by omega) hfree habsent
          obtain ⟨r, t, hrest, hw', hmark', henough, htrue, hfalse⟩ := ih (h.within hw) (by omega : vp + 1 + n = _)
            (by omega) (by
              intro j hj hj'
              rw [hview j (by omega), if_neg (by omega)]
              exact habs j (by omega) hj')
          refine ⟨r, t, ?_, (hw.mono hold (by omega)).trans hw', fun hm => hmark' (hmark hm), ?_, ?_, ?_⟩
          · rw [allocLoop, bind_of_ok hk]
            simp only
            rw [bind_of_ok (x := fill p fun _ => 0) rfl, bind_of_ok hmap]
            exact hrest
          · rw [henough, hlist, List.length_cons, Nat.add_le_add_iff_right]
          · intro hr j hj
            rw [htrue hr j hj, hview j hj]
            by_cases hjv : j.val = vp
            · rw [if_neg (by omega), if_pos hjv, if_pos (by omega)]
            · rw [if_neg hjv]
              by_cases hin : vp + 1 ≤ j.val ∧ j.val < pgroundup newsz
              · rw [if_pos hin, if_pos (by omega)]
              · rw [if_neg hin, if_neg (by omega)]
          · intro hr j hj
            rw [hfalse hr j hj, hview j hj]
            by_cases hin : pgroundup oldsz ≤ j.val ∧ j.val < pgroundup newsz
            · rw [if_pos hin, if_pos hin]
            · rw [if_neg hin, if_neg hin, if_neg (by omega)]

/-- `allocuvm` maps pages of zeroes up to the new size, or fails and maps nothing. -/
theorem allocuvm_run {oldsz : Nat} {m : Memory} (h : Tidy k m d) (newsz : Nat) (hold : oldsz ≤ usertop)
    (habs : ∀ j : Fin 1024, pgroundup oldsz ≤ j.val → j.val < 160 → userPage m d j = none) :
    ∃ r t, allocuvm k d oldsz newsz m = .ok (r, t) ∧ Within d (pgroundup oldsz) 160 m t ∧
      (Marked m d → Marked t d) ∧
      (r ≠ 0 ↔ newsz ≤ usertop ∧ max newsz oldsz ≠ 0 ∧
        pgroundup newsz - pgroundup oldsz ≤ m.freelist.length) ∧
      (r = 0 → ∀ j : Fin 1024, j.val < 160 → userPage t d j = userPage m d j) ∧
      (r ≠ 0 → r = max newsz oldsz ∧ r ≤ usertop ∧ ∀ j : Fin 1024, j.val < 160 → userPage t d j =
        if pgroundup oldsz ≤ j.val ∧ j.val < pgroundup r then some fun _ => 0 else userPage m d j) := by
  unfold allocuvm
  split
  · rename_i hbig
    exact ⟨0, m, rfl, .refl .., id, iff_of_false (fun hc => hc rfl) fun hc => absurd hc.1 (by omega),
      fun _ _ _ => rfl, fun hc => absurd rfl hc⟩
  rename_i hnew
  have hnew' : newsz ≤ usertop := by omega
  split
  · rename_i hlt
    have hmono : pgroundup newsz ≤ pgroundup oldsz := pgroundup_mono (by omega)
    refine ⟨oldsz, m, rfl, .refl .., id, iff_of_true (by omega) ⟨hnew', ?_, by omega⟩, fun _ _ _ => rfl,
      fun _ => ⟨(max_eq_right (by omega)).symm, hold, ?_⟩⟩
    · rw [max_eq_right (by omega)]
      omega
    intro j _
    rw [if_neg (by omega)]
  · rename_i hge
    have hge' : oldsz ≤ newsz := by omega
    have hmono := pgroundup_mono hge'
    have htop := pgroundup_le hnew'
    obtain ⟨b, t, hloop, hw, hmark, henough, htrue, hfalse⟩ := allocLoop_run h hnew'
      (by omega : pgroundup oldsz + (pgroundup newsz - pgroundup oldsz) = _) le_rfl
      fun j hj hj' => habs j hj (by omega)
    rw [bind_of_ok hloop]
    cases b with
    | true =>
        refine ⟨newsz, t, rfl, hw.mono le_rfl htop, hmark, ?_, ?_, ?_⟩
        · rw [max_eq_left hge']
          exact ⟨fun hne => ⟨hnew', hne, henough.mp rfl⟩, fun hc => hc.2.1⟩
        · -- a new size of 0 maps nothing
          rintro rfl j hj
          have hzero : pgroundup 0 = 0 := rfl
          rw [htrue rfl j hj, if_neg (by omega)]
        · exact fun _ => ⟨(max_eq_left hge').symm, hnew', htrue rfl⟩
    | false =>
        refine ⟨0, t, rfl, hw.mono le_rfl htop, hmark, ?_, ?_, fun hc => absurd rfl hc⟩
        · exact iff_of_false (fun hc => hc rfl) fun hc => absurd (henough.mpr hc.2.2) Bool.false_ne_true
        intro _ j hj
        rw [hfalse rfl j hj]
        split
        · rename_i hin
          exact (habs j hin.1 hj).symm
        · rfl

end Loops

/-! ## `growproc` -/

/-- What `growproc` promises: the process has grown by `n` bytes, or it failed and nothing has
changed. -/
def AllOrNothing (k : Link) (s : Machine) (i : Fin nproc) (p : Proc) (n : Int32) : Prop :=
  ∃ r t, growproc k i n s = .ok (r, t) ∧
    ((r = true ∧ ∃ sz : Nat, (sz : Int) = p.sz + n.toInt ∧
        t.procs = Function.update s.procs i (some { p with sz := sz }) ∧
        ∀ j : Fin 1024, j.val < 160 → userPage t.mem p.pgdir j =
          if j.val < pgroundup sz then
            if j.val < pgroundup p.sz then userPage s.mem p.pgdir j else some fun _ => 0
          else none) ∨
      (r = false ∧ t.procs = s.procs ∧
        ∀ j : Fin 1024, j.val < 160 → userPage t.mem p.pgdir j = userPage s.mem p.pgdir j))

theorem current_ok {s : Machine} {i : Fin nproc} {p : Proc} (h : s.procs i = some p) :
    current i s = .ok (p, s) := by
  have hlook : (look fun s : Machine => s.procs i) s = .ok (some p, s) := by rw [look, h]
  unfold current
  rw [bind_of_ok hlook]
  rfl

/-- A process with its user pages: those below its size. -/
structure Running (k : Link) (s : Machine) (i : Fin nproc) (p : Proc) : Prop where
  proc : s.procs i = some p
  tidy : Tidy k s.mem p.pgdir
  size : p.sz ≤ usertop
  pages : ∀ j : Fin 1024, j.val < 160 → (userPage s.mem p.pgdir j ≠ none ↔ j.val < pgroundup p.sz)

namespace Running

variable {k : Link} {s : Machine} {i : Fin nproc} {p : Proc} {n : Int32}

theorem absent (h : Running k s i p) (j : Fin 1024) (hj : pgroundup p.sz ≤ j.val) (hlt : j.val < 160) :
    userPage s.mem p.pgdir j = none := by
  by_contra hne
  have := (h.pages j hlt).mp hne
  omega

/-- `growproc` after the pages have been mapped or unmapped. -/
theorem growproc_eq (h : Running k s i p) {sz : Nat} {m : Memory}
    (hgrow : growMemory k p n s.mem = .ok (sz, m)) :
    (n ≠ 0 ∧ sz = 0 → growproc k i n s = .ok (false, { s with mem := m })) ∧
      (n = 0 ∨ sz ≠ 0 → growproc k i n s =
        .ok (true, ⟨m, Function.update s.procs i (some { p with sz := sz })⟩)) := by
  have hcur := current_ok h.proc
  have hmem : onMem (growMemory k p n) s = .ok (sz, { s with mem := m }) := by
    unfold onMem
    rw [hgrow]
  rw [growproc, bind_of_ok hcur, bind_of_ok hmem]
  refine ⟨?_, ?_⟩
  · intro hc
    rw [if_pos hc]
    rfl
  · intro hc
    rw [if_neg (by tauto)]
    rfl

theorem grow (h : Running k s i p) (hn : 0 < n) : AllOrNothing k s i p n := by
  have hpos : 0 < n.toInt := Int32.lt_iff_toInt_lt.mp hn
  have hlt := n.toInt_lt
  have hsize := h.size
  have hne : n ≠ 0 := by
    rintro rfl
    exact absurd hpos (by decide)
  have hnat : n.toNatClampNeg = n.toInt.toNat := rfl
  have hsum : (p.sz + n.toNatClampNeg) % 2 ^ 32 = p.sz + n.toInt.toNat := by
    simp only [usertop] at hsize
    omega
  obtain ⟨sz, m, hrun, -, -, -, hzero, hgood⟩ := allocuvm_run h.tidy
    ((p.sz + n.toNatClampNeg) % 2 ^ 32) h.size h.absent
  have hgrow : growMemory k p n s.mem = .ok (sz, m) := by
    unfold growMemory
    rw [if_pos hn]
    exact hrun
  by_cases h0 : sz = 0
  · exact ⟨_, _, (h.growproc_eq hgrow).1 ⟨hne, h0⟩, .inr ⟨rfl, rfl, hzero h0⟩⟩
  · obtain ⟨hval, -, hview⟩ := hgood h0
    rw [hsum, max_eq_left (Nat.le_add_right _ _)] at hval
    have hmono : pgroundup p.sz ≤ pgroundup sz := pgroundup_mono (by omega)
    refine ⟨_, _, (h.growproc_eq hgrow).2 (.inr h0), .inl ⟨rfl, sz, by omega, rfl, ?_⟩⟩
    intro j hj
    rw [hview j hj]
    by_cases hold : j.val < pgroundup p.sz
    · rw [if_neg (by omega), if_pos (by omega), if_pos hold]
    · by_cases hnew : j.val < pgroundup sz
      · rw [if_pos (by omega), if_pos hnew, if_neg hold]
      · rw [if_neg (by omega), if_neg hnew]
        exact h.absent j (by omega) hj

/-- `deallocuvm` as `growproc` calls it: the size that it computes for a negative number. -/
theorem shrink_run (h : Running k s i p) (hn : n < 0) :
    ∃ m, growMemory k p n s.mem = .ok (min (usub p.sz n.toInt.natAbs) p.sz, m) ∧
      ∀ j : Fin 1024, j.val < 160 → userPage m p.pgdir j =
        if pgroundup (usub p.sz n.toInt.natAbs) ≤ j.val ∧ j.val < pgroundup p.sz then none
        else userPage s.mem p.pgdir j := by
  obtain ⟨m, hrun, -, -, hview⟩ := deallocuvm_run h.tidy (usub p.sz n.toInt.natAbs) h.size
  refine ⟨m, ?_, hview⟩
  unfold growMemory
  rw [if_neg (Int32.not_lt.mpr (Int32.le_of_lt hn)), if_pos hn]
  exact hrun

theorem usub_of_le {a b : Nat} (ha : a < 2 ^ 32) (hle : b ≤ a) : usub a b = a - b := by
  unfold usub
  omega

theorem usub_of_lt {a b : Nat} (hb : b < 2 ^ 32) (hlt : a < b) : usub a b = a + 2 ^ 32 - b := by
  unfold usub
  omega

theorem shrink (h : Running k s i p) (hn : n < 0) (hok : p.sz = 0 ∨ 0 < (p.sz : Int) + n.toInt) :
    AllOrNothing k s i p n := by
  have hneg : n.toInt < 0 := Int32.lt_iff_toInt_lt.mp hn
  have hle := n.le_toInt
  have hsize := h.size
  simp only [usertop] at hsize
  have hne : n ≠ 0 := by
    rintro rfl
    exact absurd hneg (by decide)
  obtain ⟨m, hgrow, hview⟩ := h.shrink_run hn
  rcases hok with h0 | hpos
  · -- a process without memory keeps what it has
    have hzero : pgroundup p.sz = 0 := by
      rw [h0]
      rfl
    rw [h0, Nat.min_zero] at hgrow
    refine ⟨_, _, (h.growproc_eq hgrow).1 ⟨hne, rfl⟩, .inr ⟨rfl, rfl, ?_⟩⟩
    intro j hj
    rw [hview j hj, if_neg (by omega)]
  · have husub : usub p.sz n.toInt.natAbs = p.sz - n.toInt.natAbs :=
      usub_of_le (by omega) (by omega)
    rw [husub] at hgrow hview
    rw [min_eq_left (Nat.sub_le _ _)] at hgrow
    have hmono : pgroundup (p.sz - n.toInt.natAbs) ≤ pgroundup p.sz := pgroundup_mono (Nat.sub_le _ _)
    refine ⟨_, _, (h.growproc_eq hgrow).2 (.inr (by omega)), .inl ⟨rfl, _, by omega, rfl, ?_⟩⟩
    intro j hj
    rw [hview j hj]
    by_cases hin : j.val < pgroundup (p.sz - n.toInt.natAbs)
    · rw [if_neg (by omega), if_pos hin, if_pos (by omega)]
    · rw [if_neg hin]
      split
      · rfl
      · exact h.absent j (by omega) hj

theorem stay (h : Running k s i p) : AllOrNothing k s i p 0 := by
  have hgrow : growMemory k p 0 s.mem = .ok (p.sz, s.mem) := rfl
  refine ⟨_, _, (h.growproc_eq hgrow).2 (.inl rfl), .inl ⟨rfl, p.sz, (Int.add_zero _).symm, rfl, ?_⟩⟩
  intro j hj
  split
  · rfl
  · exact h.absent j (by omega) hj

/-- A process that gives back all that it has, or more. -/
theorem not_shrink (h : Running k s i p) (hn : n < 0) (hpos : 0 < p.sz)
    (hle : (p.sz : Int) + n.toInt ≤ 0) : ¬ AllOrNothing k s i p n := by
  have hneg : n.toInt < 0 := Int32.lt_iff_toInt_lt.mp hn
  have hlow := n.le_toInt
  have hsize := h.size
  simp only [usertop] at hsize
  have hne : n ≠ 0 := by
    rintro rfl
    exact absurd hneg (by decide)
  obtain ⟨m, hgrow, hview⟩ := h.shrink_run hn
  rintro ⟨r, t, hrun, hres⟩
  by_cases heq : (p.sz : Int) + n.toInt = 0
  · -- the pages are gone, and the result is -1
    have husub : usub p.sz n.toInt.natAbs = 0 := by
      rw [usub_of_le (by omega) (by omega)]
      omega
    rw [husub] at hgrow hview
    rw [Nat.zero_min] at hgrow
    rw [(h.growproc_eq hgrow).1 ⟨hne, rfl⟩] at hrun
    cases hrun
    have hpage : (0 : Nat) < pgroundup p.sz := by
      simp only [pgroundup]
      omega
    rcases hres with ⟨hr, _⟩ | ⟨_, _, hsame⟩
    · cases hr
    · have hmapped := (h.pages 0 (by decide)).mpr hpage
      refine hmapped ?_
      rw [← hsame 0 (by decide), hview 0 (by decide), if_pos ⟨le_rfl, hpage⟩]
  · -- the difference wraps around, and nothing has changed
    have husub : usub p.sz n.toInt.natAbs = p.sz + 2 ^ 32 - n.toInt.natAbs :=
      usub_of_lt (by omega) (by omega)
    rw [husub, min_eq_right (by omega)] at hgrow
    rw [(h.growproc_eq hgrow).2 (.inr (by omega))] at hrun
    cases hrun
    rcases hres with ⟨_, sz, hsz, hprocs, _⟩ | ⟨hr, _⟩
    · have hsame := congrFun hprocs i
      simp only [Function.update_self, Option.some.injEq, Proc.mk.injEq, true_and] at hsame
      omega
    · cases hr

end Running

/-- **`growproc`.**  It does what it promises unless a process that has memory gives back all of it, or
more. -/
theorem growproc_iff {k : Link} {s : Machine} {i : Fin nproc} {p : Proc} (h : Running k s i p)
    (n : Int32) :
    AllOrNothing k s i p n ↔ 0 ≤ n ∨ p.sz = 0 ∨ 0 < (p.sz : Int) + n.toInt := by
  constructor
  · intro hall
    by_contra hc
    push Not at hc
    obtain ⟨hn, hsz, hle⟩ := hc
    exact h.not_shrink (Int32.not_le.mp hn) (by omega) hle hall
  · intro hok
    by_cases hneg : n < 0
    · exact h.shrink hneg (hok.resolve_left (Int32.not_le.mpr hneg))
    · by_cases hpos : 0 < n
      · exact h.grow hpos
      · obtain rfl : n = 0 := Int32.le_antisymm (Int32.not_lt.mp hpos) (Int32.not_lt.mp hneg)
        exact h.stay

/-- A process with one page. -/
theorem smallMachine_running {free : List Nat} (hnd : (free ++ [2000, 2001, 2002, 2003]).Nodup)
    (hram : ∀ p ∈ free, Ram smallLink p) :
    Running smallLink (smallMachine free) ⟨0, by decide⟩ ⟨2000, 2001, 4096⟩ := by
  have hacc := smallMachine_accounted hnd
  have hproc : (smallMachine free).procs ⟨0, by decide⟩ = some ⟨2000, 2001, 4096⟩ := rfl
  have hsized := hacc.sized _ _ hproc
  refine ⟨hproc, ⟨hacc.nodup_pool hproc, hsized.dir, ?_⟩, by decide, ?_⟩
  · intro p hp
    have hpool : pool (smallMachine free).mem 2001 = ↑free + ({2001} + {2002} + {2003}) :=
      congrArg ((↑free : Multiset Nat) + ·) (smallMachine_owned free)
    rw [hpool] at hp
    simp only [Multiset.mem_add, Multiset.mem_coe, Multiset.mem_singleton] at hp
    rcases hp with hp | (rfl | rfl) | rfl
    · exact hram p hp
    · exact ⟨by decide, by decide, by decide⟩
    · exact ⟨by decide, by decide, by decide⟩
    · exact ⟨by decide, by decide, by decide⟩
  · intro j hj
    refine ⟨fun hne => hsized.below j hj ?_, fun hlt => ?_⟩
    · by_contra habs
      exact hne (userPage_eq_none.mpr habs)
    · have hpages : pgroundup 4096 = 1 := rfl
      obtain rfl : j = 0 := Fin.ext (by rw [hpages] at hlt; exact Nat.lt_one_iff.mp hlt)
      have hpres : Present ((smallMachine free).mem.page (first (smallMachine free).mem 2001) 0) := by
        have hfirst : first (smallMachine free).mem 2001 = 2002 := by
          show pteAddr (smallPage 2001 0) = 2002
          decide
        rw [hfirst]
        show Present (smallPage 2002 0)
        decide
      exact fun hnone => userPage_eq_none.mp hnone hpres

theorem smallMachine_one :
    Running smallLink (smallMachine [3000]) ⟨0, by decide⟩ ⟨2000, 2001, 4096⟩ := by
  refine smallMachine_running (by decide) ?_
  intro p hp
  obtain rfl := List.mem_singleton.mp hp
  exact ⟨by decide, by decide, by decide⟩

/-- `sbrk(4096)` of this process. -/
theorem growproc_iff_small :
    AllOrNothing smallLink (smallMachine [3000]) ⟨0, by decide⟩ ⟨2000, 2001, 4096⟩ 4096 :=
  (growproc_iff smallMachine_one 4096).mpr (.inl (by decide))

/-- `sbrk(-4096)` of this process fails, and the process has no page any more. -/
theorem not_growproc : ¬ ∀ (k : Link) (s : Machine) (i : Fin nproc) (p : Proc) (n : Int32),
    Running k s i p → AllOrNothing k s i p n := by
  intro hclaim
  exact smallMachine_one.not_shrink (n := -4096) (by decide) (by decide) (by decide)
    (hclaim _ _ _ _ _ smallMachine_one)

end Vm
end Xv6
end LfsXv6
