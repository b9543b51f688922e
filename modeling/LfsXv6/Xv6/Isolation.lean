import LfsXv6.Xv6.Exec
import LfsXv6.Xv6.ProgramImage

/-!
# Isolation — the memory of processes

All processes share the pages of the machine.  Seen from a process it is otherwise: its memory is its own, a
child gets a copy of it, and no call of another process changes it.  The other processes may run between any
two calls and store in their pages.  Segments that wrap around are left out: `exec` would map them over the
kernel.
-/

namespace LfsXv6
namespace Xv6
namespace Vm

open Lib Prog

/-! ## What a process sees -/

/-- What a process sees of its memory: the size, and the pages. -/
structure Seen where
  sz : Nat
  pages : Pages

/-- `sbrk` by `n`, where there is memory for it.  A process that gives back all that it has loses its pages, but
not its size, and gets `-1`; one that gives back more keeps everything, and gets `-1` when it has nothing. -/
def Seen.sbrk (a : Seen) (n : Int32) : Bool × Seen :=
  let sz : Int := a.sz + n.toInt
  if 0 < n then (true, ⟨sz.toNat, a.pages.grow (pgroundup a.sz) (pgroundup sz.toNat)⟩)
  else if n = 0 ∨ sz < 0 then (decide (n = 0 ∨ a.sz ≠ 0), a)
  else if sz = 0 then (false, ⟨a.sz, fun _ => none⟩)
  else (true, ⟨sz.toNat, fun j => if j.val < pgroundup sz.toNat then a.pages j else none⟩)

/-- The memory of process `i`. -/
def view (s : Machine) (i : Fin nproc) : Option Seen :=
  (s.procs i).map fun p => ⟨p.sz, userPages s.mem p.pgdir⟩

/-- A process stores in its user page `j`, and the new words are `w`; `false` is a page fault. -/
def storePage (i : Fin nproc) (j : Fin 160) (w : Words) : Prog Machine Bool := do
  let p ← current i
  let pte ← look fun s => s.mem.page (first s.mem p.pgdir) (upage j)
  if Present pte ∧ User pte then do
    onMem (fill (pteAddr pte) w)
    pure true
  else pure false

/-- A call, or a store. -/
inductive Act where
  | call (c : Call)
  | store (i : Fin nproc) (j : Fin 160) (w : Words)

def act (k : Link) : Act → Prog Machine Bool
  | .call c => execute k c
  | .store i j w => storePage i j w

/-- No segment wraps around. -/
def Allowed (_ : Machine) : Act → Prop
  | .call (.exec _ ip _) => ∀ bin phdrs, ip = some bin → bin.phdrs = some phdrs →
      ∀ ph, some ph ∈ phdrs → ph.Contained
  | _ => True

/-- Processes with memories of their own: `fork` copies, `sbrk` grows a memory by pages of zeroes or cuts it,
`exec` makes a new memory, and `wait` drops one.  Where a call finds no memory, nothing changes. -/
inductive Private (v : Fin nproc → Option Seen) : Act → Bool → (Fin nproc → Option Seen) → Prop where
  | fork {i np : Fin nproc} {a : Seen} : v i = some a → v np = none →
      Private v (.call (.fork i)) true (Function.update v np (some a))
  | forkFailed {i : Fin nproc} : Private v (.call (.fork i)) false v
  | sbrk {i : Fin nproc} {n : Int32} {a : Seen} : v i = some a → (0 < n → a.sz + n.toInt ≤ usertop) →
      Private v (.call (.sbrk i n)) (a.sbrk n).1 (Function.update v i (some (a.sbrk n).2))
  | sbrkFailed {i : Fin nproc} {n : Int32} : 0 < n → Private v (.call (.sbrk i n)) false v
  | exec {i : Fin nproc} {bin : Binary} {phdrs : List (Option Proghdr)} {argv : List (List UInt8)} :
      bin.phdrs = some phdrs → Private v (.call (.exec i (some bin) argv)) true
        (Function.update v i
          (some ⟨Pages.imageSize bin.readi phdrs, Pages.image bin.readi phdrs argv⟩))
  | execFailed {i : Fin nproc} {ip : Option Binary} {argv : List (List UInt8)} :
      Private v (.call (.exec i ip argv)) false v
  | wait {j : Fin nproc} : Private v (.call (.wait j)) true (Function.update v j none)
  | store {i : Fin nproc} {j : Fin 160} {w : Words} {a : Seen} : v i = some a → a.pages j ≠ none →
      Private v (.store i j w) true
        (Function.update v i (some { a with pages := Function.update a.pages j (some w) }))
  | fault {i : Fin nproc} {j : Fin 160} {w : Words} : Private v (.store i j w) false v

/-- No page is free and owned, or owned twice, and all of them are memory behind the kernel. -/
structure Isolated (k : Link) (s : Machine) : Prop where
  accounted : Accounted s
  ram : ∀ y ∈ pages s, Ram k y

section Frames

variable {k : Link} {s t : Machine} {m m' : Memory} {d : Nat} {i : Fin nproc} {p : Proc} {j : Fin 1024}

/-- What one call may do: change the memory of one process. -/
structure Confined (s t : Machine) (i : Fin nproc) : Prop where
  accounted : Accounted t
  pages : pages t ≤ pages s
  others : ∀ j, j ≠ i → view t j = view s j

/-- Pages move between the free list and one slot of the process table, and some may be lost. -/
theorem Accounted.confined {x : Option Proc} (h : Accounted s) (i : Fin nproc)
    (hframe : ∀ y, y ∉ (↑s.mem.freelist + holding s.mem (s.procs i) : Multiset Nat) →
      m'.page y = s.mem.page y)
    (hbalance : ↑m'.freelist + holding m' x ≤ ↑s.mem.freelist + holding s.mem (s.procs i))
    (hsized : ∀ p, x = some p → Sized m' p) : Confined s ⟨m', Function.update s.procs i x⟩ i := by
  have hother : ∀ j, j ≠ i → ∀ q, s.procs j = some q → ∀ y ∈ owned s.mem q.pgdir,
      m'.page y = s.mem.page y := fun j hj q hq y hy => hframe y (h.apart hq hj hy)
  have hrest : ∑ j ∈ Finset.univ.erase i, holding m' (Function.update s.procs i x j) =
      ∑ j ∈ Finset.univ.erase i, holding s.mem (s.procs j) := by
    refine Finset.sum_congr rfl ?_
    intro j hj
    have hne := Finset.ne_of_mem_erase hj
    rw [Function.update_of_ne hne]
    cases hq : s.procs j with
    | none => rfl
    | some q => rw [holding, holding, owned_frame (hother j hne q hq)]
  have hpages : Vm.pages ⟨m', Function.update s.procs i x⟩ ≤ Vm.pages s := by
    rw [split s i, split ⟨m', Function.update s.procs i x⟩ i]
    show ↑m'.freelist + holding m' (Function.update s.procs i x i) + _ ≤ _
    rw [Function.update_self, hrest]
    exact Multiset.add_le_add_right hbalance
  refine ⟨⟨Multiset.nodup_of_le hpages h.nodup, ?_⟩, hpages, ?_⟩
  · intro j q hq
    change Function.update s.procs i x j = some q at hq
    by_cases hj : j = i
    · subst hj
      rw [Function.update_self] at hq
      exact hsized q hq
    · rw [Function.update_of_ne hj] at hq
      exact (h.sized j q hq).frame (hother j hj q hq)
  · intro j hj
    unfold view
    show (Function.update s.procs i x j).map _ = _
    rw [Function.update_of_ne hj]
    cases hq : s.procs j with
    | none => rfl
    | some q =>
        refine congrArg (fun v => some (⟨q.sz, v⟩ : Seen)) (funext fun n => ?_)
        exact userPage_frame (h.sized j q hq).dir (hother j hj q hq) n.isLt

/-- What a call may do that changes the memory of no process. -/
structure Unseen (s t : Machine) : Prop where
  accounted : Accounted t
  pages : pages t ≤ pages s
  same : view t = view s

theorem Unseen.refl (h : Accounted s) : Unseen s s := ⟨h, le_rfl, rfl⟩

/-- Only free pages have been written to, and some may be lost. -/
theorem Accounted.unseen (h : Accounted s) (hframe : ∀ y, y ∉ s.mem.freelist → m'.page y = s.mem.page y)
    (hfree : (↑m'.freelist : Multiset Nat) ≤ ↑s.mem.freelist) : Unseen s { s with mem := m' } := by
  have hown : ∀ i q, s.procs i = some q → ∀ y ∈ owned s.mem q.pgdir, m'.page y = s.mem.page y :=
    fun i q hq y hy => hframe y (h.owned_not_free hq hy)
  have hself : ({ s with mem := m' } : Machine) = ⟨m', Function.update s.procs 0 (s.procs 0)⟩ := by
    rw [Function.update_eq_self]
  have hconf : Confined s ⟨m', Function.update s.procs 0 (s.procs 0)⟩ 0 := by
    refine h.confined 0 (fun y hy => ?_) ?_ fun q hq => (h.sized 0 q hq).frame (hown 0 q hq)
    · exact hframe y fun hc => hy (Multiset.mem_add.mpr (.inl (by simpa using hc)))
    · refine add_le_add hfree (le_of_eq ?_)
      cases hq : s.procs 0 with
      | none => rfl
      | some q => rw [holding, holding, owned_frame (hown 0 q hq)]
  refine ⟨hself ▸ hconf.accounted, hself ▸ hconf.pages, funext fun j => ?_⟩
  unfold view
  cases hq : s.procs j with
  | none => rfl
  | some q =>
      exact congrArg (fun v => some (⟨q.sz, v⟩ : Seen)) (funext fun n =>
        userPage_frame (h.sized j q hq).dir (hown j q hq) n.isLt)

/-- The memory of the process whose slot changes. -/
theorem view_update {x : Option Proc} : view ⟨m', Function.update s.procs i x⟩ i =
    x.map fun p => ⟨p.sz, userPages m' p.pgdir⟩ := by
  show (Function.update s.procs i x i).map _ = _
  rw [Function.update_self]

/-- Only the memory of process `i` has changed. -/
theorem Confined.view_eq (h : Confined s t i) : view t = Function.update (view s) i (view t i) := by
  funext j
  by_cases hj : j = i
  · rw [hj, Function.update_self]
  · rw [Function.update_of_ne hj, h.others j hj]

end Frames

/-! ## Page tables of the kernel -/

section Setup

variable {k : Link} {m t : Memory}

/-- `x` takes pages from the free list and puts none back. -/
abbrev Pops {α : Type} (x : Prog Memory α) : Prop := Moves (fun m t => t.freelist <:+ m.freelist) x

theorem pops_bind {α β : Type} {x : Prog Memory α} {f : α → Prog Memory β} (hx : Pops x) (hf : ∀ a, Pops (f a)) :
    Pops (x >>= f) :=
  moves_bind (fun _ _ _ h h' => h'.trans h) hx hf

theorem pops_pure {α : Type} (a : α) : Pops (pure a : Prog Memory α) :=
  moves_pure (fun m => List.suffix_refl m.freelist) a

theorem pops_look {α : Type} (g : Memory → α) : Pops (look g) :=
  moves_look (fun m => List.suffix_refl m.freelist) g

theorem pops_kalloc : Pops kalloc := by
  intro m r t h
  rcases kalloc_cases h with ⟨_, _, rfl⟩ | ⟨p, rest, hfree, _, rfl⟩
  · exact List.suffix_refl _
  · rw [hfree]
    exact List.suffix_cons p rest

theorem pops_walkpgdir (d vp : Nat) (create : Bool) : Pops (walkpgdir d vp create) := by
  unfold walkpgdir
  refine pops_bind (pops_look _) fun pde => moves_ite (pops_pure _) (moves_ite ?_ (pops_pure _))
  refine pops_bind pops_kalloc fun r => ?_
  cases r with
  | none => exact pops_pure _
  | some pgtab =>
      exact pops_bind (moves_assign fun m => List.suffix_refl m.freelist) fun _ =>
        pops_bind (moves_assign fun m => List.suffix_refl m.freelist) fun _ => pops_pure _

theorem pops_mapPage (d vp p perm : Nat) : Pops (mapPage d vp p perm) := by
  unfold mapPage
  refine pops_bind (pops_walkpgdir d vp true) fun r => ?_
  cases r with
  | none => exact pops_pure _
  | some tj =>
      refine pops_bind (pops_look _) fun w => moves_ite (moves_halt _) ?_
      exact pops_bind (moves_assign fun m => List.suffix_refl m.freelist) fun _ => pops_pure _

theorem pops_mapLoop (d perm n vp p : Nat) : Pops (mapLoop d perm n vp p) := by
  induction n generalizing vp p with
  | zero => exact pops_mapPage d vp p perm
  | succ n ih => exact pops_bind (pops_mapPage d vp p perm) fun b => moves_ite (ih _ _) (pops_pure _)

theorem pops_mappages (d la size pa perm : Nat) : Pops (mappages d la size pa perm) := by
  unfold mappages
  exact pops_mapLoop d perm _ _ _

theorem pops_mapKernel (d : Nat) (rs : List (Nat × Nat × Nat)) : Pops (mapKernel d rs) := by
  induction rs with
  | nil => exact pops_pure _
  | cons x rs ih => exact pops_bind (pops_mappages d _ _ _ _) fun b => moves_ite ih (pops_pure _)

theorem pops_setupkvm (k : Link) : Pops (setupkvm k) := by
  unfold setupkvm
  refine pops_bind pops_kalloc fun r => ?_
  cases r with
  | none => exact pops_pure _
  | some d =>
      exact pops_bind (moves_assign fun m => List.suffix_refl m.freelist) fun _ =>
        pops_bind (pops_mapKernel d _) fun b => moves_ite (pops_pure _) (pops_pure _)

/-- Where `setupkvm` fails, pages may be lost, but nothing else happens. -/
theorem setupkvm_fails (hfree : m.freelist.Nodup) (hrun : setupkvm k m = .ok (none, t)) :
    (∀ y, y ∉ m.freelist → t.page y = m.page y) ∧ (↑t.freelist : Multiset Nat) ≤ ↑m.freelist :=
  ⟨(setupkvm_spec hfree hrun).1, Multiset.coe_le.mpr (pops_setupkvm k m none t hrun).sublist.subperm⟩

end Setup

/-! ## The calls -/

section Copy

variable {k : Link} {m t : Memory} {d old : Nat}

/-- The loop of `copyuvm` copies the pages of an address space that is not its own. -/
theorem copyLoop_view {turns vp : Nat} (h : Tidy k m d) (hspace : Space m d vp) (htop : vp + turns ≤ 160)
    (hdir : Present (m.page old 0)) (hapart : ∀ y ∈ owned m old, y ∉ pool m d)
    (hrun : copyLoop d old turns vp m = .ok (true, t)) :
    ∀ j : Fin 1024, j.val < 160 → userPage t d j =
      if vp ≤ j.val ∧ j.val < vp + turns then userPage m old j else userPage m d j := by
  induction turns generalizing vp m with
  | zero =>
      cases hrun
      intro j _
      rw [if_neg (by omega)]
  | succ turns ih =>
      rw [copyLoop, bind_of_ok (walkpgdir_found (by rw [pdx_user (by omega)]; exact hdir)),
        pdx_user (by omega)] at hrun
      obtain ⟨w, u₁, hw, hrun⟩ := bind_eq_ok hrun
      cases hw
      split at hrun
      · rename_i hpres
        have hpres : Present (m.page (first m old) (ptx vp)) := hpres
        obtain ⟨a, u₂, hk, hrun⟩ := bind_eq_ok hrun
        rcases kalloc_cases hk with ⟨_, rfl, rfl⟩ | ⟨p, rest, hfree, rfl, rfl⟩
        · cases hrun
        · obtain ⟨src, u₃, hsrc, hrun⟩ := bind_eq_ok hrun
          cases hsrc
          obtain ⟨_, u₄, hfill, hrun⟩ := bind_eq_ok hrun
          have hu₄ := assign_eq_ok hfill
          have habs : ¬ Present (m.page (first m d) (ptx vp)) := by
            rw [hspace.user (ptx vp) (by rw [ptx_user (by omega)]; omega), ptx_user (by omega)]
            exact Nat.lt_irrefl vp
          obtain ⟨u, hmap, hstep, -, -, hview⟩ := mapUser_run (w := m.page (pteAddr (m.page (first m old) (ptx vp))))
            h (by omega) hfree habs
          obtain ⟨b, u₅, hmap', hrun⟩ := bind_eq_ok hrun
          rw [hu₄] at hmap'
          cases hmap'.symm.trans hmap
          have hframe : ∀ y ∈ owned m old, u.page y = m.page y := fun y hy => hstep.moved.frame y (hapart y hy)
          have hspace' : Space u d (vp + 1) := by
            refine hspace.within hstep (by omega) fun j hj => ?_
            have hnone := not_congr (userPage_eq_none (m := u) (d := d) (j := j))
            rw [hstep.first_eq, not_not, hview j hj] at hnone
            rw [← hnone]
            by_cases hjv : j.val = vp
            · rw [if_pos hjv]
              exact iff_of_true (by simp) (by omega)
            · rw [if_neg hjv, userPage_eq_none, not_not, hspace.user j hj]
              omega
          have hrest := ih (h.within hstep) hspace' (by omega)
            (by rw [hframe old (dir_mem_owned m old)]; exact hdir)
            (by rw [owned_frame hframe, hstep.moved.pool]; exact hapart) hrun
          intro j hj
          rw [hrest j hj, hview j hj, userPage_frame hdir hframe hj]
          by_cases hjv : j.val = vp
          · have hjp : j = ptx vp := Fin.ext (by rw [ptx_user (by omega)]; exact hjv)
            rw [if_neg (by omega), if_pos hjv, if_pos (by omega), userPage, hjp, if_pos hpres]
          · rw [if_neg hjv]
            by_cases hin : vp + 1 ≤ j.val ∧ j.val < vp + 1 + turns
            · rw [if_pos hin, if_pos (by omega)]
            · rw [if_neg hin, if_neg (by omega)]
      · cases hrun

/-- `copyuvm` of an address space: a copy, or nothing but lost pages. -/
theorem copyuvm_copies {sz : Nat} {r : Option Nat} (hfree : m.freelist.Nodup) (hram : ∀ y ∈ m.freelist, Ram k y)
    (hsz : sz ≤ usertop) (hdir : Present (m.page old 0)) (hapart : ∀ y ∈ owned m old, y ∉ m.freelist)
    (hbelow : ∀ j : Fin 1024, j.val < 160 → Present (m.page (first m old) j) → j.val < pgroundup sz)
    (hrun : copyuvm k old sz m = .ok (r, t)) :
    (∀ y, y ∉ m.freelist → t.page y = m.page y) ∧
      (r = none → (↑t.freelist : Multiset Nat) ≤ ↑m.freelist) ∧
      ∀ d, r = some d → pool t d = ↑m.freelist ∧ Space t d (pgroundup sz) ∧
        ∀ j : Fin 1024, j.val < 160 → userPage t d j = userPage m old j := by
  have htop := pgroundup_le hsz
  rw [copyuvm] at hrun
  obtain ⟨a, u, hset, hrun⟩ := bind_eq_ok hrun
  cases a with
  | none =>
      cases hrun
      obtain ⟨hframe, hle⟩ := setupkvm_fails hfree hset
      exact ⟨hframe, fun _ => hle, by rintro d ⟨⟩⟩
  | some d =>
      obtain ⟨hframe, hsome, -⟩ := setupkvm_spec hfree hset
      obtain ⟨hpool, hblank⟩ := hsome d rfl
      obtain ⟨b, u', hcopy, hrun⟩ := bind_eq_ok hrun
      obtain ⟨hw, hres⟩ := Space.copyLoop_within hblank.space (by rw [Nat.zero_add]; exact htop) hcopy
      obtain ⟨hframe', hpool'⟩ := moved_frame hframe hpool hw.moved
      cases b with
      | false =>
          obtain ⟨_, u'', hfreevm, hrun⟩ := bind_eq_ok hrun
          cases hrun
          have hbuilt : Built m t none fun _ => True :=
            built_of_freevm hframe' hpool' (hw.present hblank.dir) hfree hfreevm
          exact ⟨hbuilt.frame, fun _ => le_of_eq (hbuilt.undone rfl), by rintro d ⟨⟩⟩
      | true =>
          cases hrun
          have hold : ∀ y ∈ owned m old, u.page y = m.page y := fun y hy => hframe y (hapart y hy)
          have htidy : Tidy k u d :=
            ⟨hblank.nodup, hblank.dir, fun y hy => hram y (by rw [hpool] at hy; simpa using hy)⟩
          have hview := copyLoop_view htidy hblank.space (by rw [Nat.zero_add]; exact htop)
            (by rw [hold old (dir_mem_owned m old)]; exact hdir)
            (by rw [owned_frame hold, hpool]; simpa using hapart) hcopy
          refine ⟨hframe', by rintro ⟨⟩, ?_⟩
          rintro _ ⟨⟩
          have hspace := hres rfl
          rw [Nat.zero_add] at hspace
          refine ⟨hpool', hspace, fun j hj => ?_⟩
          rw [hview j hj, userPage_frame hdir hold hj]
          split
          · rfl
          · rename_i hout
            have hnone : userPage m old j = none :=
              userPage_eq_none.mpr fun hp => hout ⟨Nat.zero_le _, by have := hbelow j hj hp; omega⟩
            rw [hnone, userPage_eq_none, hblank.space.user j hj]
            exact Nat.not_lt_zero _

end Copy

section Calls

variable {k : Link} {s t : Machine} {i : Fin nproc} {p : Proc} {r : Bool}

theorem Isolated.of_le (h : Isolated k s) (hacc : Accounted t) (hle : pages t ≤ pages s) : Isolated k t :=
  ⟨hacc, fun y hy => h.ram y (Multiset.mem_of_le hle hy)⟩

theorem mem_pages_of_free {y : Nat} (hy : y ∈ s.mem.freelist) : y ∈ pages s := by
  unfold pages
  exact Multiset.mem_add.mpr (.inl (by simpa using hy))

theorem mem_pages_of_holding {y : Nat} (hy : y ∈ holding s.mem (s.procs i)) : y ∈ pages s := by
  unfold pages
  exact Multiset.mem_add.mpr (.inr (Multiset.mem_sum.mpr ⟨i, Finset.mem_univ i, hy⟩))

theorem Isolated.tidy (h : Isolated k s) (hp : s.procs i = some p) : Tidy k s.mem p.pgdir := by
  refine ⟨h.accounted.nodup_pool hp, (h.accounted.sized i p hp).dir, fun y hy => h.ram y ?_⟩
  rcases Multiset.mem_add.mp hy with hy | hy
  · exact mem_pages_of_free (by simpa using hy)
  · refine mem_pages_of_holding (i := i) ?_
    rw [hp, holding]
    exact Multiset.mem_add.mpr (.inr hy)

/-- What a call does, as the machine and as the processes see it. -/
def Outcome (k : Link) (s : Machine) (a : Act) (r : Bool) (t : Machine) : Prop :=
  Isolated k t ∧ Private (view s) a r (view t)

theorem Unseen.forkFailed (h : Isolated k s) (hu : Unseen s t) : Outcome k s (.call (.fork i)) false t := by
  refine ⟨h.of_le hu.accounted hu.pages, ?_⟩
  rw [hu.same]
  exact .forkFailed

theorem fork_outcome (h : Isolated k s) (hrun : fork k i s = .ok (r, t)) :
    Outcome k s (.call (.fork i)) r t := by
  have hacc := h.accounted
  rw [fork] at hrun
  obtain ⟨p, u, hcur, hrun⟩ := bind_eq_ok hrun
  obtain ⟨hp, hu⟩ := current_eq_ok hcur
  rw [hu] at hrun
  obtain ⟨np, u₁, hnp, hrun⟩ := bind_eq_ok hrun
  cases hnp
  cases hslot : unused s with
  | none =>
      rw [hslot] at hrun
      cases hrun
      exact (Unseen.refl hacc).forkFailed h
  | some np =>
      rw [hslot] at hrun
      have hempty := unused_eq_some hslot
      obtain ⟨ks, u₂, hk, hrun⟩ := bind_eq_ok hrun
      obtain ⟨m₁, hk, hu₂⟩ := onMem_eq_ok hk
      rcases kalloc_cases hk with ⟨_, hks, hm₁⟩ | ⟨kstack, rest, hfree, hks, hm₁⟩
      · rw [hks, hu₂, hm₁] at hrun
        cases hrun
        exact (Unseen.refl hacc).forkFailed h
      · rw [hks, hu₂, hm₁] at hrun
        have hnd := hacc.nodup_free
        rw [hfree] at hnd
        have hsub : ∀ y ∈ rest, y ∈ s.mem.freelist := fun y hy => by
          rw [hfree]
          exact List.mem_cons_of_mem _ hy
        have hsized := hacc.sized i p hp
        have howned : owned { s.mem with freelist := rest } p.pgdir = owned s.mem p.pgdir :=
          owned_frame fun _ _ => rfl
        obtain ⟨d, u₃, hcopy, hrun⟩ := bind_eq_ok hrun
        obtain ⟨m₂, hcopy, hu₃⟩ := onMem_eq_ok hcopy
        obtain ⟨hframe, hlost, hcopied⟩ := copyuvm_copies (m := { s.mem with freelist := rest })
          (List.nodup_cons.mp hnd).2 (fun y hy => h.ram y (mem_pages_of_free (hsub y hy))) hsized.size hsized.dir
          (fun y hy hc => hacc.owned_not_free hp (howned ▸ hy) (hsub y hc)) hsized.below hcopy
        have hframe' : ∀ y, y ∉ s.mem.freelist → m₂.page y = s.mem.page y := fun y hy =>
          hframe y fun hc => hy (hsub y hc)
        rw [hu₃] at hrun
        cases d with
        | none =>
            obtain ⟨_, u₄, hkf, hrun⟩ := bind_eq_ok hrun
            cases hrun
            obtain ⟨m₃, hkf, hu₄⟩ := onMem_eq_ok hkf
            have hm₃ := kfree_eq hkf
            rw [hu₄]
            refine Unseen.forkFailed h (hacc.unseen (fun y hy => ?_) ?_)
            · rw [hm₃, setPage_ne]
              · exact hframe' y hy
              · rintro rfl
                exact hy (by rw [hfree]; exact List.mem_cons_self)
            · rw [hm₃, setPage_freelist, hfree, ← Multiset.cons_coe, ← Multiset.cons_coe]
              exact Multiset.cons_le_cons _ (hlost rfl)
        | some d =>
            obtain ⟨_, u₄, hset, hrun⟩ := bind_eq_ok hrun
            cases hrun
            have ht := assign_eq_ok hset
            obtain ⟨hpool, hspace, hview⟩ := hcopied d rfl
            have hconf : Confined s ⟨m₂, Function.update s.procs np (some ⟨kstack, d, p.sz⟩)⟩ np := by
              refine hacc.confined np (fun y hy => ?_) ?_ ?_
              · exact hframe' y fun hc => hy (Multiset.mem_add.mpr (.inl (by simpa using hc)))
              · rw [pool] at hpool
                change ↑m₂.freelist + owned m₂ d = (↑rest : Multiset Nat) at hpool
                rw [hempty, holding, holding, add_zero, hfree, ← Multiset.cons_coe,
                  ← Multiset.singleton_add, ← hpool]
                exact le_of_eq (by abel)
              · rintro q ⟨⟩
                exact ⟨hspace.dir, hsized.size, fun j hj hpres => (hspace.user j hj).mp hpres⟩
            rw [ht]
            refine ⟨h.of_le hconf.accounted hconf.pages, ?_⟩
            show Private (view s) _ true (view ⟨m₂, Function.update s.procs np (some ⟨kstack, d, p.sz⟩)⟩)
            have hchild : userPages m₂ d = userPages s.mem p.pgdir := funext fun n => hview (upage n) n.isLt
            rw [hconf.view_eq, view_update, Option.map_some, hchild]
            refine .fork (i := i) ?_ ?_
            · rw [view, hp]
              rfl
            · rw [view, hempty]
              rfl

/-- Only the memory of process `i` has changed, and as it should. -/
theorem Confined.outcome {a : Act} (h : Isolated k s) (hc : Confined s t i)
    (hstep : Private (view s) a r (Function.update (view s) i (view t i))) : Outcome k s a r t :=
  ⟨h.of_le hc.accounted hc.pages, by rw [hc.view_eq]; exact hstep⟩

/-- The pages that a call takes or gives back are the user pages of process `i`. -/
theorem Within.confined {m : Memory} {q : Proc} {a b : Nat} (hw : Within p.pgdir a b s.mem m) (h : Isolated k s)
    (hp : s.procs i = some p) (hq : Sized m q) (hks : q.kstack = p.kstack) (hpd : q.pgdir = p.pgdir) :
    Confined s ⟨m, Function.update s.procs i (some q)⟩ i := by
  refine h.accounted.confined i (fun y hy => ?_) ?_ ?_
  · refine hw.moved.frame y fun hc => hy ?_
    rw [hp, holding]
    rcases Multiset.mem_add.mp hc with hc | hc
    · exact Multiset.mem_add.mpr (.inl hc)
    · exact Multiset.mem_add.mpr (.inr (Multiset.mem_add.mpr (.inr hc)))
  · have hpool := hw.moved.pool
    rw [pool, pool] at hpool
    rw [hp, holding, holding, hks, hpd, add_left_comm, hpool, add_left_comm]
  · rintro q' ⟨⟩
    exact hq

/-- What `growMemory` and its result mean for what the process sees. -/
def Grows (a : Seen) (n : Int32) (sz : Nat) (v : Pages) : Prop :=
  0 < n ∧ sz = 0 ∧ v = a.pages ∨
    (0 < n → a.sz + n.toInt ≤ usertop) ∧
      a.sbrk n = (!decide (n ≠ 0 ∧ sz = 0), ⟨if n ≠ 0 ∧ sz = 0 then a.sz else sz, v⟩)

/-- `sbrk` by a positive number. -/
theorem growMemory_grow {m m' : Memory} {n : Int32} {sz : Nat} (h : Tidy k m p.pgdir) (hs : Sized m p)
    (habs : ∀ j : Fin 1024, pgroundup p.sz ≤ j.val → j.val < 160 → userPage m p.pgdir j = none) (hn : 0 < n)
    (hrun : allocuvm k p.pgdir p.sz ((p.sz + n.toNatClampNeg) % 2 ^ 32) m = .ok (sz, m')) :
    Within p.pgdir 0 160 m m' ∧ Grows ⟨p.sz, userPages m p.pgdir⟩ n sz (userPages m' p.pgdir) := by
  obtain ⟨r, u, hall, hw, -, -, hzero, hgood⟩ := allocuvm_run h _ hs.size habs
  cases hall.symm.trans hrun
  refine ⟨hw.mono (Nat.zero_le _) le_rfl, ?_⟩
  by_cases hr : sz = 0
  · exact .inl ⟨hn, hr, funext fun j => hzero hr (upage j) j.isLt⟩
  · obtain ⟨hmax, hle, hview⟩ := hgood hr
    have hpos : 0 < n.toInt := Int32.lt_iff_toInt_lt.mp hn
    have hlt := n.toInt_lt
    have hsize := hs.size
    have hnat : n.toNatClampNeg = n.toInt.toNat := rfl
    simp only [usertop] at hsize hle
    have hsum : ((p.sz : Int) + n.toInt).toNat = sz := by omega
    refine .inr ⟨fun _ => ?_, ?_⟩
    · simp only [usertop]
      omega
    · rw [Seen.sbrk, if_pos hn, if_neg fun hc => hr hc.2, decide_eq_false fun hc => hr hc.2]
      simp only [hsum]
      exact congrArg (fun v => (true, (⟨sz, v⟩ : Seen))) (funext fun j => (hview (upage j) j.isLt).symm)

/-- `sbrk` by a negative number. -/
theorem growMemory_shrink {m m' : Memory} {n : Int32} {sz : Nat} (h : Tidy k m p.pgdir) (hs : Sized m p)
    (habs : ∀ j : Fin 1024, pgroundup p.sz ≤ j.val → j.val < 160 → userPage m p.pgdir j = none) (hn : n < 0)
    (hrun : deallocuvm k p.pgdir p.sz (usub p.sz n.toInt.natAbs) m = .ok (sz, m')) :
    Within p.pgdir 0 160 m m' ∧ Grows ⟨p.sz, userPages m p.pgdir⟩ n sz (userPages m' p.pgdir) := by
  obtain ⟨u, hde, hw, -, hview⟩ := deallocuvm_run h (usub p.sz n.toInt.natAbs) hs.size
  cases hde.symm.trans hrun
  refine ⟨hw.mono (Nat.zero_le _) (pgroundup_le hs.size), .inr ⟨fun hc => absurd hn (Int32.not_lt.mpr
    (Int32.le_of_lt hc)), ?_⟩⟩
  have hneg : n.toInt < 0 := Int32.lt_iff_toInt_lt.mp hn
  have hlow := n.le_toInt
  have hsize := hs.size
  simp only [usertop] at hsize
  have hne : n ≠ 0 := by
    rintro rfl
    exact absurd hneg (by decide)
  rw [Seen.sbrk, if_neg (Int32.not_lt.mpr (Int32.le_of_lt hn))]
  by_cases hwrap : (p.sz : Int) + n.toInt < 0
  · -- the difference wraps around, and nothing changes
    have husub : usub p.sz n.toInt.natAbs = p.sz + 2 ^ 32 - n.toInt.natAbs := by
      unfold usub
      omega
    have hmono : pgroundup p.sz ≤ pgroundup (usub p.sz n.toInt.natAbs) := pgroundup_mono (by omega)
    have hsame : userPages m' p.pgdir = userPages m p.pgdir := funext fun j =>
      (hview (upage j) j.isLt).trans (if_neg (by omega))
    rw [if_pos (.inr hwrap), hsame, husub, min_eq_right (by omega)]
    by_cases h0 : p.sz = 0
    · simp [h0, hne]
    · simp [h0, hne]
  · have husub : usub p.sz n.toInt.natAbs = ((p.sz : Int) + n.toInt).toNat := by
      unfold usub
      omega
    have hcut : userPages m' p.pgdir = fun j : Fin 160 =>
        if j.val < pgroundup ((p.sz : Int) + n.toInt).toNat then userPages m p.pgdir j else none := by
      funext j
      show userPage m' p.pgdir (upage j) = _
      rw [hview (upage j) j.isLt, husub]
      show (if pgroundup _ ≤ j.val ∧ j.val < pgroundup p.sz then none else userPage m p.pgdir (upage j)) =
        if j.val < pgroundup _ then userPage m p.pgdir (upage j) else none
      by_cases hin : j.val < pgroundup ((p.sz : Int) + n.toInt).toNat
      · rw [if_neg (by omega), if_pos hin]
      · rw [if_neg hin]
        split
        · rfl
        · exact habs (upage j) (by show pgroundup p.sz ≤ j.val; omega) j.isLt
    rw [if_neg (not_or.mpr ⟨hne, hwrap⟩), husub, min_eq_left (by omega), hcut]
    by_cases h0 : (p.sz : Int) + n.toInt = 0
    · have hzero : pgroundup 0 = 0 := rfl
      simp [h0, hne, hzero]
    · have hnat : ((p.sz : Int) + n.toInt).toNat ≠ 0 := by omega
      simp only [if_neg h0, hnat, and_false, decide_false, Bool.not_false, if_false]

/-- What `sbrk` does to the memory of a process. -/
theorem growMemory_view {m m' : Memory} {n : Int32} {sz : Nat} (h : Tidy k m p.pgdir) (hs : Sized m p)
    (hrun : growMemory k p n m = .ok (sz, m')) :
    Within p.pgdir 0 160 m m' ∧ Grows ⟨p.sz, userPages m p.pgdir⟩ n sz (userPages m' p.pgdir) := by
  have habs : ∀ j : Fin 1024, pgroundup p.sz ≤ j.val → j.val < 160 → userPage m p.pgdir j = none :=
    fun j hj hlt => userPage_eq_none.mpr fun hp => absurd (hs.below j hlt hp) (by omega)
  unfold growMemory at hrun
  split at hrun
  · exact growMemory_grow h hs habs ‹_› hrun
  · split at hrun
    · exact growMemory_shrink h hs habs ‹_› hrun
    · rename_i hpos hneg
      cases hrun
      have hzero : n = 0 := Int32.le_antisymm (Int32.not_lt.mp hpos) (Int32.not_lt.mp hneg)
      subst hzero
      exact ⟨.refl .., .inr ⟨fun hc => absurd hc (by decide), by simp [Seen.sbrk]⟩⟩

/-- The pages that a process sees are below its size. -/
def Seen.Fits (a : Seen) : Prop := a.sz ≤ usertop ∧ ∀ j, a.pages j ≠ none → j.val < pgroundup a.sz

theorem Sized.of_fits {m m' : Memory} {sz : Nat} (hs : Sized m p) (hw : Within p.pgdir 0 160 m m')
    (hfit : (⟨sz, userPages m' p.pgdir⟩ : Seen).Fits) : Sized m' { p with sz := sz } :=
  ⟨hw.present hs.dir, hfit.1, fun j hj hpres => hfit.2 ⟨j.val, hj⟩ fun hnone => userPage_eq_none.mp hnone hpres⟩

theorem Seen.Fits.sbrk {a : Seen} {n : Int32} (h : a.Fits) (htop : 0 < n → a.sz + n.toInt ≤ usertop) :
    (a.sbrk n).2.Fits := by
  obtain ⟨hsz, hbelow⟩ := h
  unfold Seen.sbrk
  dsimp only
  split
  · rename_i hn
    have hpos : 0 < n.toInt := Int32.lt_iff_toInt_lt.mp hn
    have hle := htop hn
    refine ⟨by simp only; omega, fun j hj => ?_⟩
    simp only [Pages.grow] at hj ⊢
    have hmono : pgroundup a.sz ≤ pgroundup ((a.sz : Int) + n.toInt).toNat := pgroundup_mono (by omega)
    split at hj
    · omega
    · exact (hbelow j hj).trans_le hmono
  · rename_i hn
    have hneg : n.toInt ≤ 0 := Int32.le_iff_toInt_le.mp (Int32.not_lt.mp hn)
    split
    · exact ⟨hsz, hbelow⟩
    · split
      · exact ⟨hsz, fun j hj => absurd rfl hj⟩
      · refine ⟨by simp only; omega, fun j hj => ?_⟩
        by_contra hout
        exact hj (if_neg hout)

theorem sbrk_outcome {n : Int32} (h : Isolated k s) (hrun : growproc k i n s = .ok (r, t)) :
    Outcome k s (.call (.sbrk i n)) r t := by
  rw [growproc] at hrun
  obtain ⟨p, u, hcur, hrun⟩ := bind_eq_ok hrun
  obtain ⟨hp, hu⟩ := current_eq_ok hcur
  rw [hu] at hrun
  obtain ⟨sz, u₁, hgrow, hrun⟩ := bind_eq_ok hrun
  obtain ⟨m, hgrow, hu₁⟩ := onMem_eq_ok hgrow
  have hs := h.accounted.sized i p hp
  obtain ⟨hw, hview⟩ := growMemory_view (h.tidy hp) hs hgrow
  have ht : r = !decide (n ≠ 0 ∧ sz = 0) ∧
      t = ⟨m, Function.update s.procs i (some { p with sz := if n ≠ 0 ∧ sz = 0 then p.sz else sz })⟩ := by
    rw [hu₁] at hrun
    split at hrun
    · rename_i hc
      cases hrun
      rw [if_pos hc, decide_eq_true hc, show ({ p with sz := p.sz } : Proc) = p from rfl, ← hp,
        Function.update_eq_self]
      exact ⟨rfl, rfl⟩
    · rename_i hc
      obtain ⟨_, u₂, hset, hrun⟩ := bind_eq_ok hrun
      cases hrun
      rw [if_neg hc, decide_eq_false hc]
      exact ⟨rfl, assign_eq_ok hset⟩
  obtain ⟨rfl, rfl⟩ := ht
  have hseen : view s i = some ⟨p.sz, userPages s.mem p.pgdir⟩ := by
    rw [view, hp]
    rfl
  have hfits : (⟨p.sz, userPages s.mem p.pgdir⟩ : Seen).Fits :=
    ⟨hs.size, fun j hj => hs.below (upage j) j.isLt (not_not.mp fun hc => hj (userPage_eq_none.mpr hc))⟩
  rcases hview with ⟨hn, hzero, hsame⟩ | ⟨htop, hsbrk⟩
  · -- no memory
    have hne : n ≠ 0 := by
      rintro rfl
      exact absurd hn (by decide)
    have hc : n ≠ 0 ∧ sz = 0 := ⟨hne, hzero⟩
    rw [if_pos hc, decide_eq_true hc]
    have hsized : Sized m { p with sz := p.sz } := hs.of_fits hw (by rw [hsame]; exact hfits)
    refine (hw.confined h hp hsized rfl rfl).outcome h ?_
    rw [view_update, Option.map_some, hsame, ← hseen, Function.update_eq_self]
    exact .sbrkFailed hn
  · have hfits' := hfits.sbrk htop
    rw [hsbrk] at hfits'
    refine (hw.confined h hp (hs.of_fits hw hfits') rfl rfl).outcome h ?_
    rw [view_update, Option.map_some]
    have hstep := Private.sbrk hseen htop
    rw [hsbrk] at hstep
    exact hstep

theorem Unseen.execFailed {ip : Option Binary} {argv : List (List UInt8)} (h : Isolated k s) (hu : Unseen s t) :
    Outcome k s (.call (.exec i ip argv)) false t := by
  refine ⟨h.of_le hu.accounted hu.pages, ?_⟩
  rw [hu.same]
  exact .execFailed

theorem exec_outcome {ip : Option Binary} {argv : List (List UInt8)} (h : Isolated k s)
    (hok : Allowed s (.call (.exec i ip argv))) (hrun : exec k i ip argv s = .ok (r, t)) :
    Outcome k s (.call (.exec i ip argv)) r t := by
  have hacc := h.accounted
  rw [exec] at hrun
  obtain ⟨p, u, hcur, hrun⟩ := bind_eq_ok hrun
  obtain ⟨hp, hu⟩ := current_eq_ok hcur
  rw [hu] at hrun
  cases ip with
  | none =>
      cases hrun
      exact (Unseen.refl hacc).execFailed h
  | some bin =>
      cases hph : bin.phdrs with
      | none =>
          simp only [hph] at hrun
          cases hrun
          exact (Unseen.refl hacc).execFailed h
      | some phdrs =>
          simp only [hph] at hrun
          obtain ⟨x, u₁, hset, hrun⟩ := bind_eq_ok hrun
          obtain ⟨m₁, hset, hu₁⟩ := onMem_eq_ok hset
          rw [hu₁] at hrun
          cases x with
          | none =>
              cases hrun
              obtain ⟨hframe, hle⟩ := setupkvm_fails hacc.nodup_free hset
              exact (hacc.unseen hframe hle).execFailed h
          | some d =>
              obtain ⟨hframe, hsome, -⟩ := setupkvm_spec hacc.nodup_free hset
              obtain ⟨hpool, hblank⟩ := hsome d rfl
              obtain ⟨y, u₂, hbuild, hrun⟩ := bind_eq_ok hrun
              obtain ⟨m₂, hbuild, hu₂⟩ := onMem_eq_ok hbuild
              obtain ⟨hw, hres⟩ := Space.buildImage_within
                (allStay_of_contained (hok bin phdrs rfl hph) (Nat.zero_le _)) hblank.space hbuild
              obtain ⟨hframe₂, hpool₂⟩ := moved_frame hframe hpool hw.moved
              rw [hu₂] at hrun
              cases y with
              | none =>
                  obtain ⟨_, u₃, hfv, hrun⟩ := bind_eq_ok hrun
                  cases hrun
                  obtain ⟨m₃, hfv, hu₃⟩ := onMem_eq_ok hfv
                  have hbuilt : Built s.mem m₃ none fun _ => True :=
                    built_of_freevm hframe₂ hpool₂ (hw.present hblank.dir) hacc.nodup_free hfv
                  rw [hu₃]
                  exact (hacc.unseen hbuilt.frame (le_of_eq (hbuilt.undone rfl))).execFailed h
              | some sz =>
                  obtain ⟨htop, hspace⟩ := hres sz rfl
                  obtain ⟨_, u₃, hset', hrun⟩ := bind_eq_ok hrun
                  have hu₃ := assign_eq_ok hset'
                  obtain ⟨_, u₄, hfv, hrun⟩ := bind_eq_ok hrun
                  cases hrun
                  rw [hu₃] at hfv
                  obtain ⟨m₃, hfv, hu₄⟩ := onMem_eq_ok hfv
                  -- The old pages become free, and the new ones are not among them.
                  have hold : owned m₂ p.pgdir = owned s.mem p.pgdir :=
                    owned_frame fun y hy => hframe₂ y (hacc.owned_not_free hp hy)
                  have hdir : Present (m₂.page p.pgdir 0) := by
                    rw [hframe₂ _ (hacc.owned_not_free hp (dir_mem_owned _ _))]
                    exact (hacc.sized i p hp).dir
                  have hall : pool m₂ p.pgdir + owned m₂ d = ↑s.mem.freelist + owned s.mem p.pgdir := by
                    rw [← hpool₂, pool, pool, hold]
                    abel
                  have hnd : (↑s.mem.freelist + owned s.mem p.pgdir : Multiset Nat).Nodup := hacc.nodup_pool hp
                  rw [← hall] at hnd
                  obtain ⟨hback, hkeep⟩ := freevm_free (Multiset.nodup_add.mp hnd).1 hdir hfv
                  have hnew : ∀ y ∈ owned m₂ d, m₃.page y = m₂.page y := fun y hy =>
                    hkeep y fun hc => Multiset.disjoint_left.mp (Multiset.nodup_add.mp hnd).2.2 hc hy
                  have hsized : Sized m₂ { p with pgdir := d, sz := sz } :=
                    ⟨hspace.dir, htop, fun j hj hpres => (hspace.user j hj).mp hpres⟩
                  rw [hu₄]
                  refine Confined.outcome h (i := i) (hacc.confined i (fun y hy => ?_) ?_ ?_) ?_
                  · rw [hp, holding] at hy
                    have hfree : y ∉ s.mem.freelist := fun hc =>
                      hy (Multiset.mem_add.mpr (.inl (by simpa using hc)))
                    have hout : y ∉ pool m₂ p.pgdir := fun hc => hy (by
                      rw [add_left_comm, ← hall]
                      exact Multiset.mem_add.mpr (.inr (Multiset.mem_add.mpr (.inl hc))))
                    rw [hkeep y hout, hframe₂ y hfree]
                  · rw [hp, holding, holding, hback, owned_frame hnew, add_left_comm, hall, add_left_comm]
                  · rintro q ⟨⟩
                    exact hsized.frame hnew
                  · have hblank' : Tidy k m₁ d := ⟨hblank.nodup, hblank.dir, fun y hy =>
                      h.ram y (mem_pages_of_free (by rw [hpool] at hy; simpa using hy))⟩
                    obtain ⟨hsize, himage⟩ := buildImage_pages (hok bin phdrs rfl hph) hblank' hblank.space hbuild
                    have hkept : userPages m₃ d = userPages m₂ d := funext fun n =>
                      userPage_frame hspace.dir hnew n.isLt
                    rw [view_update, Option.map_some, hkept, himage, hsize]
                    exact .exec hph

theorem wait_outcome (h : Isolated k s) (hrun : wait k i s = .ok (r, t)) : Outcome k s (.call (.wait i)) r t := by
  have hacc := h.accounted
  rw [wait] at hrun
  obtain ⟨p, u, hcur, hrun⟩ := bind_eq_ok hrun
  obtain ⟨hp, hu⟩ := current_eq_ok hcur
  rw [hu] at hrun
  obtain ⟨_, u₁, hkf, hrun⟩ := bind_eq_ok hrun
  obtain ⟨m₁, hkf, hu₁⟩ := onMem_eq_ok hkf
  have hm₁ := kfree_eq hkf
  rw [hu₁] at hrun
  obtain ⟨_, u₂, hfv, hrun⟩ := bind_eq_ok hrun
  obtain ⟨m₂, hfv, hu₂⟩ := onMem_eq_ok hfv
  rw [hu₂] at hrun
  obtain ⟨_, u₃, hset, hrun⟩ := bind_eq_ok hrun
  cases hrun
  have ht := assign_eq_ok hset
  have hnd := hacc.nodup_pair i
  rw [hp, holding, add_left_comm] at hnd
  have hks : p.kstack ∉ owned s.mem p.pgdir := fun hc =>
    Multiset.disjoint_left.mp (Multiset.nodup_add.mp hnd).2.2 (Multiset.mem_singleton_self _)
      (Multiset.mem_add.mpr (.inr hc))
  have hsame : ∀ y ∈ owned s.mem p.pgdir, m₁.page y = s.mem.page y := by
    intro y hy
    rw [hm₁]
    refine setPage_ne ?_
    rintro rfl
    exact hks hy
  have hpool : pool m₁ p.pgdir = {p.kstack} + (↑s.mem.freelist + owned s.mem p.pgdir) := by
    rw [pool, owned_frame hsame, hm₁, setPage_freelist, ← Multiset.cons_coe, ← Multiset.singleton_add,
      add_assoc]
  have hdir : Present (m₁.page p.pgdir 0) := by
    rw [hsame _ (dir_mem_owned _ _)]
    exact (hacc.sized i p hp).dir
  obtain ⟨hback, hkeep⟩ := freevm_free (by rw [hpool]; exact hnd) hdir hfv
  rw [ht]
  refine Confined.outcome h (i := i) (hacc.confined i (fun y hy => ?_) ?_ (by rintro q ⟨⟩)) ?_
  · rw [hp, holding, add_left_comm] at hy
    rw [hkeep y (by rw [hpool]; exact hy), hm₁]
    refine setPage_ne ?_
    rintro rfl
    exact hy (Multiset.mem_add.mpr (.inl (Multiset.mem_singleton_self _)))
  · rw [hp, holding, holding, hback, hpool, add_zero, add_left_comm]
  · rw [view_update]
    exact .wait

theorem store_outcome {j : Fin 160} {w : Words} (h : Isolated k s) (hrun : storePage i j w s = .ok (r, t)) :
    Outcome k s (.store i j w) r t := by
  have hacc := h.accounted
  rw [storePage] at hrun
  obtain ⟨p, u, hcur, hrun⟩ := bind_eq_ok hrun
  obtain ⟨hp, hu⟩ := current_eq_ok hcur
  rw [hu] at hrun
  obtain ⟨x, u₁, hlook, hrun⟩ := bind_eq_ok hrun
  cases hlook
  split at hrun
  · rename_i hpte
    obtain ⟨hpres, -⟩ := hpte
    obtain ⟨_, u₂, hfill, hrun⟩ := bind_eq_ok hrun
    cases hrun
    obtain ⟨m, hfill, ht⟩ := onMem_eq_ok hfill
    have hm := assign_eq_ok hfill
    have hself : s.procs = Function.update s.procs i (some p) := by rw [← hp, Function.update_eq_self]
    have hsized := hacc.sized i p hp
    have hpool := hacc.nodup_pool hp
    have hw : Within p.pgdir 0 0 s.mem m := by
      rw [hm]
      exact userPage_within w hpool hsized.dir j.isLt hpres
    have hview : ∀ n : Fin 160, userPage m p.pgdir (upage n) =
        if upage n = upage j then some w else userPage s.mem p.pgdir (upage n) := fun n => by
      rw [hm]
      exact userPage_store w hpool hsized.dir j.isLt hpres (upage n) n.isLt
    have ht : t = ⟨m, Function.update s.procs i (some p)⟩ := by rw [ht, ← hself]
    subst ht
    have hkept : Sized m p := by
      refine ⟨hw.present hsized.dir, hsized.size, fun n hn hpn => hsized.below n hn ?_⟩
      rwa [hw.first_eq, hw.words n (by omega)] at hpn
    refine (hw.confined h hp hkept rfl rfl).outcome h ?_
    rw [view_update]
    have hnew : userPages m p.pgdir = Function.update (userPages s.mem p.pgdir) j (some w) := by
      funext n
      by_cases hn : n = j
      · rw [hn, Function.update_self]
        exact (hview j).trans (if_pos rfl)
      · rw [Function.update_of_ne hn]
        exact (hview n).trans (if_neg fun hc => hn (upage_injective hc))
    rw [Option.map_some, hnew]
    refine .store (a := ⟨p.sz, userPages s.mem p.pgdir⟩) ?_ ?_
    · rw [view, hp]
      rfl
    · exact fun hnone => userPage_eq_none.mp hnone hpres
  · cases hrun
    exact ⟨h, .fault⟩

/-- **Step.**  An act does to the machine what it does to processes with memories of their own. -/
theorem act_outcome {a : Act} (h : Isolated k s) (hok : Allowed s a) (hrun : act k a s = .ok (r, t)) :
    Outcome k s a r t := by
  cases a with
  | store i j w => exact store_outcome h hrun
  | call c =>
      cases c with
      | fork i => exact fork_outcome h hrun
      | sbrk i n => exact sbrk_outcome h hrun
      | exec i ip argv => exact exec_outcome h hok hrun
      | wait j => exact wait_outcome h hrun

end Calls

/-! ## Runs -/

/-- **Memory isolation.**  In every run no page is free and owned, or owned by two processes, and the processes
see what processes with memories of their own see. -/
theorem memory_private {k : Link} {s t : Machine} {as : List Act} {rs : List Bool} (h : Isolated k s)
    (hrun : Chain (act k) Allowed s as rs t) : (pages t).Nodup ∧ Traces Private (view s) as rs (view t) := by
  have hrefine : ∃ v, (Isolated k t ∧ v = view t) ∧ Traces Private (view s) as rs v := by
    refine hrun.refine (R := fun s v => Isolated k s ∧ v = view s) ?_ ⟨h, rfl⟩
    rintro s v a r u ⟨hs, rfl⟩ hok hstep
    obtain ⟨hu, hprivate⟩ := act_outcome hs hok hstep
    exact ⟨view u, ⟨hu, rfl⟩, hprivate⟩
  obtain ⟨v, ⟨ht, rfl⟩, htrace⟩ := hrefine
  exact ⟨ht.accounted.nodup, htrace⟩

theorem smallMachine_isolated : Isolated smallLink (smallMachine []) := by
  refine ⟨smallMachine_accounted (by decide), fun y hy => ?_⟩
  unfold pages at hy
  obtain ⟨i, -, hy⟩ := Multiset.mem_sum.mp ((Multiset.mem_add.mp hy).resolve_left (Multiset.notMem_zero y))
  change y ∈ holding _ (if i.val = 0 then some ⟨2000, 2001, 4096⟩ else none) at hy
  split at hy
  · change y ∈ ({2000} : Multiset Nat) + owned ⟨[], smallPage⟩ 2001 at hy
    rw [smallMachine_owned] at hy
    simp only [Multiset.mem_add, Multiset.mem_singleton] at hy
    rcases hy with rfl | (rfl | rfl) | rfl <;> exact ⟨by decide, by decide, by decide⟩
  · exact absurd hy (Multiset.notMem_zero y)

/-- A store, and a `fork` that finds no memory. -/
def smallActs : List Act :=
  [.store ⟨0, by decide⟩ ⟨0, by decide⟩ fun _ => 7, .call (.fork ⟨0, by decide⟩)]

theorem memory_private_small : ∃ t, Chain (act smallLink) Allowed (smallMachine []) smallActs [true, false] t ∧
    (pages t).Nodup ∧ Traces Private (view (smallMachine [])) smallActs [true, false] (view t) := by
  have hrun : Chain (act smallLink) Allowed (smallMachine []) smallActs [true, false] _ :=
    .cons trivial rfl (.cons trivial rfl (.nil _))
  exact ⟨_, hrun, memory_private smallMachine_isolated hrun⟩

end Vm
end Xv6
end LfsXv6
