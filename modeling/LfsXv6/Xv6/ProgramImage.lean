import LfsXv6.Xv6.GrowProc

/-!
# ProgramImage — the memory that `exec` makes

`exec` builds the new memory in pages from the free list, through a page table, and its loops cut the file and
the stack at page boundaries.  What it builds is a function of the file and the arguments alone: pages of
zeroes, the file's part of each segment in the order of the program headers, and the arguments on the stack.
-/

namespace LfsXv6
namespace Xv6
namespace Vm

open Lib Prog

/-! ## User memory -/

/-- User memory, page by page. -/
abbrev Pages : Type := Fin 160 → Option Words

/-- A user page by its number. -/
def upage (j : Fin 160) : Fin 1024 := j.castLE (by decide)

theorem upage_injective : Function.Injective upage := Fin.castLE_injective (by decide)

/-- The user memory under a page directory. -/
def userPages (m : Memory) (d : Nat) : Pages := fun j => userPage m d (upage j)

namespace Pages

/-- No page is mapped. -/
def empty : Pages := fun _ => none

/-- Bytes are stored in a page. -/
def poke (v : Pages) (vp o : Nat) (bytes : List UInt8) : Pages := fun j =>
  if j.val = vp then (v j).map fun w => Vm.poke w o bytes else v j

/-- Pages of zeroes are added. -/
def grow (v : Pages) (a b : Nat) : Pages := fun j => if a ≤ j.val ∧ j.val < b then some fun _ => 0 else v j

/-- The file's part of a segment, with the number of pages left. -/
def load (addr : Nat) (readi : Readi) (offset sz : Nat) : Nat → Nat → Pages → Pages
  | 0, _, v => v
  | n + 1, i, v => load addr readi offset sz n (i + pgsize)
      (v.poke ((addr + i) % 2 ^ 32 / pgsize) 0 (readi ((offset + i) % 2 ^ 32) (min (sz - i) pgsize)).2)

/-- Bytes at an address, with the number of turns left. -/
def copyout : Nat → Nat → List UInt8 → Pages → Pages
  | 0, _, _, v => v
  | fuel + 1, va, buf, v =>
      if buf.length = 0 then v
      else copyout fuel ((va / pgsize * pgsize + pgsize) % 2 ^ 32) (buf.drop (min (pgsize - va % pgsize) buf.length))
        (v.poke (va / pgsize) (va % pgsize) (buf.take (min (pgsize - va % pgsize) buf.length)))

/-- The segments of a program, and the size they need. -/
def segments (readi : Readi) : Nat → List (Option Proghdr) → Pages → Nat × Pages
  | sz, [], v => (sz, v)
  | sz, none :: _, v => (sz, v)
  | sz, some ph :: rest, v =>
      if ph.type ≠ elfProgLoad then segments readi sz rest v
      else segments readi (max (ph.va + ph.memsz).toNat sz) rest
        (load ph.va.toNat readi ph.offset.toNat ph.filesz.toNat (pgroundup ph.filesz.toNat) 0
          (v.grow (pgroundup sz) (pgroundup (max (ph.va + ph.memsz).toNat sz))))

/-- Where an argument goes. -/
def argAddr (sp : Nat) (arg : List UInt8) : Nat := usub sp (arg.length + 1) / 4 * 4

/-- The stack pointer and the addresses of the arguments. -/
def argAddrs : Nat → List (List UInt8) → Nat × List Nat
  | sp, [] => (sp, [])
  | sp, arg :: argv => ((argAddrs (argAddr sp arg) argv).1, argAddr sp arg :: (argAddrs (argAddr sp arg) argv).2)

/-- The arguments on the stack. -/
def pushArgs : Nat → List (List UInt8) → Pages → Pages
  | _, [], v => v
  | sp, arg :: argv, v => pushArgs (argAddr sp arg) argv (copyout (arg ++ [0]).length (argAddr sp arg) (arg ++ [0]) v)

/-- The size of a program that starts: its segments, and a page for the stack. -/
def imageSize (readi : Readi) (phdrs : List (Option Proghdr)) : Nat :=
  pgsize * pgroundup (segments readi 0 phdrs empty).1 + pgsize

/-- The memory of a program that starts. -/
def image (readi : Readi) (phdrs : List (Option Proghdr)) (argv : List (List UInt8)) : Pages :=
  let x := segments readi 0 phdrs empty
  let sz := pgsize * pgroundup x.1 + pgsize
  let args := argAddrs sz argv
  copyout (ustack args.1 args.2).length (usub args.1 ((3 + args.2.length + 1) * 4)) (ustack args.1 args.2)
    (pushArgs sz argv (x.2.grow (pgroundup x.1) (pgroundup sz)))

end Pages

/-! ## The loops -/

section Stores

variable {k : Link} {m t : Memory} {d n : Nat} {j : Fin 1024}

/-- A store in a user page changes no other one. -/
theorem userPage_store (w : Words) (h : (pool m d).Nodup) (h0 : Present (m.page d 0)) (hj : j.val < 160)
    (hp : Present (m.page (first m d) j)) (j' : Fin 1024) (hj' : j'.val < 160) :
    userPage (m.setPage (pteAddr (m.page (first m d) j)) w) d j' = if j' = j then some w else userPage m d j' := by
  have hw : Within d 0 0 m (m.setPage (pteAddr (m.page (first m d) j)) w) := userPage_within w h h0 hj hp
  unfold userPage
  rw [hw.first_eq, hw.words j' (by omega)]
  by_cases hjj : j' = j
  · subst hjj
    rw [if_pos hp, if_pos rfl, setPage_self]
  · rw [if_neg hjj]
    split
    · rename_i hp'
      rw [setPage_ne fun heq => hjj (user_inj (owned_nodup h) h0 hj' hj hp' hp heq)]
    · rfl

/-- Bytes are stored in a user page. -/
theorem userPages_poke (h : Space m d n) (hj : j.val < 160) (hp : Present (m.page (first m d) j)) (o : Nat)
    (bytes : List UInt8) :
    let u := m.setPage (pteAddr (m.page (first m d) j)) (poke (m.page (pteAddr (m.page (first m d) j))) o bytes)
    Within d 0 0 m u ∧ Space u d n ∧ userPages u d = (userPages m d).poke j.val o bytes := by
  intro u
  have hw : Within d 0 0 m u := userPage_within _ h.nodup h.dir hj hp
  refine ⟨hw, h.written hw, funext fun i => ?_⟩
  show userPage u d (upage i) = _
  rw [userPage_store _ h.nodup h.dir hj hp (upage i) i.isLt, Pages.poke, userPages]
  by_cases hi : i.val = j.val
  · rw [if_pos (show upage i = j from Fin.ext hi), if_pos hi, show upage i = j from Fin.ext hi, userPage, if_pos hp]
    rfl
  · rw [if_neg (fun hc => hi (congrArg Fin.val hc)), if_neg hi]

/-- `allocuvm` adds pages of zeroes. -/
theorem allocuvm_pages {sz newsz r : Nat} (htidy : Tidy k m d) (h : Space m d (pgroundup sz)) (hsz : sz ≤ usertop)
    (hrun : allocuvm k d sz newsz m = .ok (r, t)) (hr : r ≠ 0) : Tidy k t d ∧
      r = max newsz sz ∧ r ≤ usertop ∧ Space t d (pgroundup r) ∧
      userPages t d = (userPages m d).grow (pgroundup sz) (pgroundup r) := by
  obtain ⟨-, hgood⟩ := h.alloc hsz hrun
  obtain ⟨hval, htop, hspace⟩ := hgood hr
  obtain ⟨r', t', hrun', hw, -, -, -, hview⟩ := allocuvm_run htidy newsz hsz fun j hj hlt => by
    rw [userPage_eq_none, h.user j hlt]
    omega
  cases hrun'.symm.trans hrun
  exact ⟨htidy.within hw, hval, htop, hspace, funext fun j => (hview hr).2.2 (upage j) j.isLt⟩

end Stores

section Loops

variable {k : Link} {m t : Memory} {d n : Nat} {readi : Readi}

/-- `loaduvm` with the pages of a segment mapped -/
theorem loadLoop_pages {addr offset sz i turns : Nat} (h : Space m d n) (hn : n ≤ 160) (hfit : addr + sz ≤ 4096 * n)
    (hturns : i + 4096 * turns = 4096 * pgroundup sz)
    (hrun : loadLoop d addr readi offset sz turns i m = .ok (true, t)) :
    Within d 0 0 m t ∧ userPages t d = Pages.load addr readi offset sz turns i (userPages m d) := by
  induction turns generalizing i m with
  | zero =>
      cases hrun
      exact ⟨.refl .., rfl⟩
  | succ turns ih =>
      have hi : i < sz := by
        simp only [pgroundup] at hturns
        omega
      have hvp : (addr + i) % 2 ^ 32 / pgsize < n := by
        simp only [pgsize]
        omega
      rw [Pages.load]
      generalize hv : (addr + i) % 2 ^ 32 / pgsize = vp at hvp
      have hj : (ptx vp).val = vp := ptx_user (by omega)
      have hpres : Present (m.page (first m d) (ptx vp)) := (h.user (ptx vp) (by omega)).mpr (by omega)
      rw [loadLoop, hv, bind_of_ok (walkpgdir_found (by rw [pdx_user (by omega)]; exact h.dir)),
        pdx_user (by omega)] at hrun
      obtain ⟨w, u, hw, hrun⟩ := bind_eq_ok hrun
      cases hw
      obtain ⟨old, u, hold, hrun⟩ := bind_eq_ok hrun
      cases hold
      obtain ⟨_, u, hfill, hrun⟩ := bind_eq_ok hrun
      have hu := assign_eq_ok hfill
      obtain ⟨hstep, hspace, hpages⟩ := userPages_poke h (by omega) hpres 0
        (readi ((offset + i) % 2 ^ 32) (min (sz - i) pgsize)).2
      rw [hj] at hpages
      rw [hu] at hrun
      split at hrun
      · obtain ⟨hw, hrest⟩ := ih hspace (by simp only [pgsize]; omega) hrun
        exact ⟨hstep.trans hw, hrest.trans (congrArg _ hpages)⟩
      · cases hrun

/-- `uva2ka` of an address in user memory -/
theorem uva2ka_page {vp r : Nat} (h : Space m d n) (hvp : vp < 2 ^ 20) (hrun : uva2ka d vp m = .ok (r, t))
    (hr : r ≠ 0) : (ptx vp).val = vp ∧ vp < 160 ∧ Present (m.page (first m d) (ptx vp)) ∧
      r = pteAddr (m.page (first m d) (ptx vp)) := by
  unfold uva2ka at hrun
  by_cases hp : Present (m.page d (pdx vp))
  · rw [bind_of_ok (walkpgdir_found hp)] at hrun
    obtain ⟨w, u, hw, hrun⟩ := bind_eq_ok hrun
    cases hw
    split at hrun
    · cases hrun
      exact absurd rfl hr
    · rename_i hpres
      split at hrun
      · cases hrun
        exact absurd rfl hr
      · rename_i huser
        cases hrun
        -- Only the entries below `USERTOP` have `PTE_U`.
        have hplace : pdx vp = 0 ∧ (ptx vp).val < 160 := by
          by_contra hc
          refine absurd (not_not.mp huser) (h.kernel (pdx vp) (ptx vp) hp ?_)
          by_cases h0 : pdx vp = 0
          · exact .inr (not_lt.mp fun hlt => hc ⟨h0, hlt⟩)
          · exact .inl h0
        have hdir : vp / 1024 % 1024 = 0 := congrArg Fin.val hplace.1
        have hsmall : vp < 1024 := by omega
        have hptx : (ptx vp).val = vp := Nat.mod_eq_of_lt hsmall
        rw [hplace.1] at hpres ⊢
        exact ⟨hptx, hptx ▸ hplace.2, not_not.mp hpres, rfl⟩
  · rw [bind_of_ok (walkpgdir_absent hp)] at hrun
    cases hrun

theorem copyout_pages {fuel va : Nat} {buf : List UInt8} (h : Space m d n) (hva : va < 2 ^ 32)
    (hrun : copyoutLoop d fuel va buf m = .ok (true, t)) :
    Within d 0 0 m t ∧ userPages t d = Pages.copyout fuel va buf (userPages m d) := by
  induction fuel generalizing va buf m with
  | zero =>
      cases hrun
      exact ⟨.refl .., rfl⟩
  | succ fuel ih =>
      rw [copyoutLoop] at hrun
      rw [Pages.copyout]
      split at hrun
      · rename_i hlen
        cases hrun
        rw [if_pos hlen]
        exact ⟨.refl .., rfl⟩
      · rename_i hlen
        rw [if_neg hlen]
        obtain ⟨pa, u, hua, hrest⟩ := bind_eq_ok hrun
        obtain ⟨hsame, -⟩ := h.uva2ka_found hua
        rw [hsame] at hrest
        split at hrest
        · cases hrest
        · rename_i hpa
          obtain ⟨hptx, hvp, hpres, hval⟩ := uva2ka_page h (by simp only [pgsize]; omega) hua hpa
          obtain ⟨old, u', hold, hrest⟩ := bind_eq_ok hrest
          cases hold
          obtain ⟨_, u', hfill, hrest⟩ := bind_eq_ok hrest
          rw [assign_eq_ok hfill, hval] at hrest
          obtain ⟨hstep, hspace, hpages⟩ := userPages_poke h (by omega) hpres (va % pgsize)
            (buf.take (min (pgsize - va % pgsize) buf.length))
          obtain ⟨hw, hdone⟩ := ih hspace (Nat.mod_lt _ (by decide)) hrest
          rw [hptx] at hpages
          exact ⟨hstep.trans hw, hdone.trans (congrArg _ hpages)⟩

theorem pushArgs_pages {sp argc : Nat} {argv : List (List UInt8)} {x : Nat × List Nat} (h : Space m d n)
    (hrun : pushArgs d sp argc argv m = .ok (some x, t)) :
    Within d 0 0 m t ∧ x = Pages.argAddrs sp argv ∧ userPages t d = Pages.pushArgs sp argv (userPages m d) := by
  induction argv generalizing sp argc m x t with
  | nil =>
      cases hrun
      exact ⟨.refl .., rfl, rfl⟩
  | cons arg argv ih =>
      rw [pushArgs] at hrun
      split at hrun
      · cases hrun
      · obtain ⟨b, u, hcopy, hrun⟩ := bind_eq_ok hrun
        cases b with
        | false => cases hrun
        | true =>
            have hlt : Pages.argAddr sp arg < 2 ^ 32 := by
              unfold Pages.argAddr usub
              omega
            obtain ⟨hw, hpages⟩ := copyout_pages h hlt hcopy
            obtain ⟨y, u', hrest, hret⟩ := bind_eq_ok hrun
            cases y with
            | none => cases hret
            | some y =>
                cases hret
                obtain ⟨hw', haddrs, hpages'⟩ := ih (h.written hw) hrest
                refine ⟨hw.trans hw', ?_, ?_⟩
                · rw [haddrs]
                  rfl
                · rw [Pages.pushArgs, ← hpages]
                  exact hpages'

theorem loadSegments_pages {phdrs : List (Option Proghdr)} {sz sz' : Nat}
    (hin : ∀ ph, some ph ∈ phdrs → ph.Contained) (htidy : Tidy k m d) (h : Space m d (pgroundup sz))
    (hsz : sz ≤ usertop) (hrun : loadSegments k d readi sz phdrs m = .ok (some sz', t)) :
    Tidy k t d ∧ Space t d (pgroundup sz') ∧ sz' ≤ usertop ∧
      (sz', userPages t d) = Pages.segments readi sz phdrs (userPages m d) := by
  induction phdrs generalizing sz m with
  | nil =>
      cases hrun
      exact ⟨htidy, h, hsz, rfl⟩
  | cons x phdrs ih =>
      have hin' : ∀ ph, some ph ∈ phdrs → ph.Contained := fun ph hph => hin ph (List.mem_cons_of_mem _ hph)
      cases x with
      | none => cases hrun
      | some ph =>
          rw [loadSegments] at hrun
          rw [Pages.segments]
          split at hrun
          · rename_i htype
            rw [if_pos htype]
            exact ih hin' htidy h hsz hrun
          · rename_i htype
            rw [if_neg htype]
            split at hrun
            · cases hrun
            · rename_i hmem
              obtain ⟨newsz, u, halloc, hrest⟩ := bind_eq_ok hrun
              split at hrest
              · cases hrest
              · rename_i hne
                obtain ⟨htidy', hval, htop, hspace, hpages⟩ := allocuvm_pages htidy h hsz halloc hne
                obtain ⟨b, u', hload, hrest⟩ := bind_eq_ok hrest
                cases b with
                | false => cases hrest
                | true =>
                    have hcont := hin ph List.mem_cons_self (not_not.mp htype)
                    have hfit : ph.va.toNat + ph.filesz.toNat ≤ 4096 * pgroundup newsz := by
                      have hfile : ph.filesz.toNat ≤ ph.memsz.toNat :=
                        UInt32.le_iff_toNat_le.mp (UInt32.not_lt.mp hmem)
                      have hsum : (ph.va + ph.memsz).toNat = ph.va.toNat + ph.memsz.toNat := by
                        rw [UInt32.toNat_add]
                        exact Nat.mod_eq_of_lt hcont
                      have hle : (ph.va + ph.memsz).toNat ≤ newsz := by
                        rw [hval]
                        exact le_max_left _ _
                      simp only [pgroundup]
                      omega
                    unfold loaduvm at hload
                    split at hload
                    · cases hload
                    · obtain ⟨hw, hloaded⟩ := loadLoop_pages hspace (pgroundup_le htop) hfit (Nat.zero_add _) hload
                      rw [← hval, ← hpages, ← hloaded]
                      exact ih hin' (htidy'.within hw) (hspace.written hw) htop hrest

end Loops

/-- **Image.**  Where `exec` builds a new memory, the file and the arguments say what is in it. -/
theorem buildImage_pages {k : Link} {m t : Memory} {d sz : Nat} {readi : Readi} {phdrs : List (Option Proghdr)}
    {argv : List (List UInt8)} (hin : ∀ ph, some ph ∈ phdrs → ph.Contained) (htidy : Tidy k m d) (h : Space m d 0)
    (hrun : buildImage k d readi phdrs argv m = .ok (some sz, t)) :
    sz = Pages.imageSize readi phdrs ∧ userPages t d = Pages.image readi phdrs argv := by
  have hempty : userPages m d = Pages.empty := funext fun j =>
    userPage_eq_none.mpr fun hp => Nat.not_lt_zero _ ((h.user (upage j) j.isLt).mp hp)
  have h₀ : Space m d (pgroundup 0) := h
  obtain ⟨r, u₁, hload, hrun⟩ := bind_eq_ok hrun
  cases r with
  | none => cases hrun
  | some sz₁ =>
      obtain ⟨htidy₁, hspace₁, hsz₁, hsegs⟩ := loadSegments_pages hin htidy h₀ (Nat.zero_le _) hload
      rw [hempty] at hsegs
      have hround : pgroundup (pgsize * pgroundup sz₁) = pgroundup sz₁ := by
        simp only [pgroundup, pgsize]
        omega
      have htop₁ : pgsize * pgroundup sz₁ ≤ usertop := by
        simp only [pgroundup, pgsize, usertop] at hsz₁ ⊢
        omega
      obtain ⟨sz₂, u₂, halloc, hrun⟩ := bind_eq_ok hrun
      split at hrun
      · cases hrun
      · rename_i hne
        obtain ⟨-, hval, -, hspace₂, hgrown⟩ := allocuvm_pages htidy₁ (by rw [hround]; exact hspace₁) htop₁ halloc hne
        rw [max_eq_left (Nat.le_add_right _ _)] at hval
        rw [hround] at hgrown
        obtain ⟨r, u₃, hpush, hrun⟩ := bind_eq_ok hrun
        cases r with
        | none => cases hrun
        | some x =>
            obtain ⟨hw, haddrs, hpushed⟩ := pushArgs_pages hspace₂ hpush
            obtain ⟨b, u₄, hcopy, hrun⟩ := bind_eq_ok hrun
            cases b with
            | false => cases hrun
            | true =>
                cases hrun
                have hlt : usub x.1 ((3 + x.2.length + 1) * 4) < 2 ^ 32 := by
                  unfold usub
                  omega
                obtain ⟨-, hcopied⟩ := copyout_pages (hspace₂.written hw) hlt hcopy
                refine ⟨?_, ?_⟩
                · rw [hval, Pages.imageSize, ← hsegs]
                · rw [hcopied, hpushed, hgrown, haddrs, hval, Pages.image, ← hsegs]

end Vm
end Xv6
end LfsXv6
