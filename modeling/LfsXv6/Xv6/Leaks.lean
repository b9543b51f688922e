import LfsXv6.Xv6.Isolation

/-!
# Leaks — which calls give back what they have taken

A `fork` that finds 2 to 13 free pages and an `exec` that finds 1 to 12 lose those that `setupkvm` has taken when
it fails, and an `sbrk` to 0 fails when it has freed the pages.  In every other state a call that fails leaves the
free pages as they were, except perhaps an `exec` of a file with a segment that wraps around and is loaded outside
the pages mapped for it.
-/

namespace LfsXv6
namespace Xv6
namespace Vm

open Lib Prog

/-- The process that makes the call, or that is waited for. -/
def Call.proc : Call → Fin nproc
  | .fork i => i
  | .sbrk i _ => i
  | .exec i _ _ => i
  | .wait j => j

/-- The free pages after a call that fails are those before it, in `sbrk` less those that are page tables of the
caller now. -/
def GivesBack (s t : Machine) : Call → Prop
  | .sbrk i _ => ∀ p, s.procs i = some p →
      ∃ new ≤ tables t.mem p.pgdir, ↑t.mem.freelist + new = (↑s.mem.freelist : Multiset Nat)
  | _ => t.mem.freelist.Perm s.mem.freelist

/-- However the call ends, no page is free and belongs to a process; and where it fails it gives back what it has
taken. -/
def LeakFree (k : Link) (s : Machine) (c : Call) : Prop :=
  ∀ r t, execute k c s = .ok (r, t) →
    (∀ i p, t.procs i = some p → ∀ y ∈ holding t.mem (some p), y ∉ t.mem.freelist) ∧
      (r = false → GivesBack s t c)

/-- `exec` has memory for a page directory, and stores bytes of the file outside the pages it has mapped, or
looks for a page there that has no page table. -/
def Strays (s : Machine) : Call → Prop
  | .exec _ ip _ => ∃ bin phdrs, ip = some bin ∧ bin.phdrs = some phdrs ∧ 12 < s.mem.freelist.length ∧
      ¬ AllStay bin.readi (s.mem.freelist.length - 13) 0 phdrs
  | _ => False

section Calls

variable {k : Link} {s t : Machine} {i : Fin nproc} {p : Proc} {c : Call} {m : Memory}

theorem Accounted.not_free (h : Accounted s) (i : Fin nproc) (p : Proc) (hp : s.procs i = some p) (y : Nat)
    (hy : y ∈ holding s.mem (some p)) : y ∉ s.mem.freelist := by
  have hnd := h.nodup_pair i
  rw [hp] at hnd
  exact fun hfree => Multiset.disjoint_left.mp (Multiset.nodup_add.mp hnd).2.2 (by simpa using hfree) hy

theorem leakFree_of_spared (h : Accounted s) (hok : Spared s c) : LeakFree k s c := by
  intro r t hrun
  obtain ⟨⟨hacc, -⟩, hfree⟩ := execute_settled h hok hrun
  refine ⟨hacc.not_free, fun hr => ?_⟩
  have hback := hfree hr
  cases c with
  | sbrk i n => exact fun p _ => ⟨0, Multiset.zero_le _, by rw [add_zero, hback]⟩
  | fork i => exact Multiset.coe_eq_coe.mp hback
  | exec i ip argv => exact Multiset.coe_eq_coe.mp hback
  | wait j => exact Multiset.coe_eq_coe.mp hback

/-- With 1 to 12 free pages `setupkvm` takes them all, and fails. -/
theorem setupkvm_leaks (hfree : m.freelist.Nodup) (hram : ∀ y ∈ m.freelist, Ram k y)
    (hlen : m.freelist.length ≤ 12) : ∃ u, setupkvm k m = .ok (none, u) ∧ u.freelist = [] := by
  obtain ⟨r, u, hrun, -, hsome, -⟩ := setupkvm_run hfree hram
  cases r with
  | none => exact ⟨u, hrun, setupkvm_exhausted hfree hrun⟩
  | some d =>
      obtain ⟨-, hspace⟩ := hsome d rfl
      have hall := hspace.length_eq
      omega

theorem kalloc_cons {q : Nat} {rest : List Nat} (hfree : m.freelist = q :: rest) :
    kalloc m = .ok (some q, { m with freelist := rest }) := by
  unfold kalloc
  rw [hfree]

theorem onMem_ok {α : Type} {x : Prog Memory α} {a : α} (h : x s.mem = .ok (a, m)) :
    onMem x s = .ok (a, { s with mem := m }) := by
  unfold onMem
  rw [h]

theorem fork_leaks (h : Isolated k s) (hp : s.procs i = some p) (hslot : unused s ≠ none)
    (hlo : 2 ≤ s.mem.freelist.length) (hhi : s.mem.freelist.length ≤ 13) :
    ∃ t, fork k i s = .ok (false, t) ∧ t.mem.freelist.length = 1 := by
  obtain ⟨np, hnp⟩ := Option.ne_none_iff_exists'.mp hslot
  obtain ⟨q, rest, hfree⟩ := List.exists_cons_of_length_pos (by omega : 0 < s.mem.freelist.length)
  have hnd := h.accounted.nodup_free
  have hram : ∀ y ∈ s.mem.freelist, Ram k y := fun y hy => h.ram y (mem_pages_of_free hy)
  rw [hfree] at hnd hram
  have hlen : rest.length ≤ 12 := by
    rw [hfree, List.length_cons] at hhi
    omega
  obtain ⟨u, hset, hnil⟩ := setupkvm_leaks (k := k) (m := { s.mem with freelist := rest })
    (List.nodup_cons.mp hnd).2 (fun y hy => hram y (List.mem_cons_of_mem q hy)) hlen
  have hcopy : copyuvm k p.pgdir p.sz { s.mem with freelist := rest } = .ok (none, u) := by
    rw [copyuvm, bind_of_ok hset]
    rfl
  have hkfree := kfree_ok (m := u) (hram q List.mem_cons_self)
  refine ⟨⟨({ u with freelist := q :: u.freelist } : Memory).setPage q fun _ => 0x01010101, s.procs⟩, ?_, ?_⟩
  · rw [fork, bind_of_ok (current_ok hp), bind_of_ok (x := look unused) (s := s) rfl, hnp]
    simp only
    rw [bind_of_ok (onMem_ok (kalloc_cons hfree))]
    simp only
    rw [bind_of_ok (onMem_ok (s := ⟨{ s.mem with freelist := rest }, s.procs⟩) hcopy)]
    simp only
    rw [bind_of_ok (onMem_ok (s := ⟨u, s.procs⟩) hkfree)]
    rfl
  · rw [setPage_freelist, hnil, List.length_singleton]

theorem exec_leaks {bin : Binary} {phdrs : List (Option Proghdr)} (h : Isolated k s) (argv : List (List UInt8))
    (hp : s.procs i = some p) (hph : bin.phdrs = some phdrs) (hlen : s.mem.freelist.length ≤ 12) :
    ∃ t, exec k i (some bin) argv s = .ok (false, t) ∧ t.mem.freelist = [] := by
  obtain ⟨u, hset, hnil⟩ := setupkvm_leaks h.accounted.nodup_free
    (fun y hy => h.ram y (mem_pages_of_free hy)) hlen
  refine ⟨⟨u, s.procs⟩, ?_, hnil⟩
  rw [exec, bind_of_ok (current_ok hp)]
  simp only [hph]
  rw [bind_of_ok (onMem_ok hset)]
  rfl

/-- `sbrk` to 0 fails when it has freed all pages. -/
theorem sbrk_leaks {n : Int32} (h : Isolated k s) (hp : s.procs i = some p) (hn : n < 0)
    (hsz : usub p.sz n.toInt.natAbs = 0) :
    ∃ t, growproc k i n s = .ok (false, t) ∧ ∀ y ∈ users s.mem p.pgdir, y ∈ t.mem.freelist := by
  have htidy := h.tidy hp
  have hs := h.accounted.sized i p hp
  obtain ⟨u, hrun, hw, -, hview⟩ := deallocuvm_run htidy 0 hs.size
  have hpos : ¬ n > 0 := Int32.not_lt.mpr (Int32.le_of_lt hn)
  have hgrow : growMemory k p n s.mem = .ok (0, u) := by
    rw [growMemory, if_neg hpos, if_pos hn, hsz, hrun, Nat.zero_min]
  have hne : n ≠ 0 := by
    rintro rfl
    exact absurd hn (by decide)
  refine ⟨⟨u, s.procs⟩, ?_, fun y hy => ?_⟩
  · rw [growproc, bind_of_ok (current_ok hp), bind_of_ok (onMem_ok hgrow), if_pos ⟨hne, rfl⟩]
    rfl
  · -- no user page is left, and directory and tables are what they were
    have hgone : users u p.pgdir = 0 := by
      rw [users, if_pos (hw.present hs.dir)]
      refine Multiset.eq_zero_of_forall_notMem fun z hz => ?_
      obtain ⟨j, hj, hpres, -⟩ := mem_userTargets.mp hz
      have hnone := hview j hj
      split at hnone
      · exact userPage_eq_none.mp hnone hpres
      · rename_i hout
        refine userPage_eq_none.mp (hnone.trans (userPage_eq_none.mpr fun hp' => hout ⟨?_, hs.below j hj hp'⟩)) hpres
        exact Nat.zero_le _
    have htables : tables u p.pgdir = tables s.mem p.pgdir := by
      unfold tables
      rw [hw.dir]
    have hnd := owned_nodup htidy.nodup
    rw [owned] at hnd
    have hout : y ∉ owned u p.pgdir := by
      rw [owned, hgone, htables, add_zero]
      exact fun hc => Multiset.disjoint_left.mp (Multiset.nodup_add.mp hnd).2.2 hc hy
    have hpool : y ∈ pool u p.pgdir := by
      rw [hw.moved.pool, pool, owned]
      exact Multiset.mem_add.mpr (.inr (Multiset.mem_add.mpr (.inr hy)))
    simpa using (Multiset.mem_add.mp hpool).resolve_right hout

/-- A call that is not spared loses pages, unless it is an `exec` that stores where it should not. -/
theorem spared_of_leakFree (h : Isolated k s) (hp : s.procs c.proc = some p) (hstray : ¬ Strays s c)
    (hfree : LeakFree k s c) : Spared s c := by
  cases c with
  | fork i =>
      by_contra hno
      simp only [Spared, not_or] at hno
      obtain ⟨t, hrun, hlen⟩ := fork_leaks h hp hno.1 (by omega) (by omega)
      have hperm : t.mem.freelist.Perm s.mem.freelist := (hfree false t hrun).2 rfl
      have := hperm.length_eq
      omega
  | sbrk i n =>
      intro q hq hn
      by_contra hno
      obtain ⟨hsz, hsome⟩ := not_or.mp hno
      obtain ⟨t, hrun, hgone⟩ := sbrk_leaks h hq hn (not_not.mp hsz)
      obtain ⟨y, hy⟩ := Multiset.exists_mem_of_ne_zero hsome
      obtain ⟨new, -, hback⟩ := (hfree false t hrun).2 rfl q hq
      have hmem : y ∈ (↑s.mem.freelist : Multiset Nat) := by
        rw [← hback]
        exact Multiset.mem_add.mpr (.inl (by simpa using hgone y hy))
      refine h.accounted.owned_not_free hq ?_ (by simpa using hmem)
      exact Multiset.mem_add.mpr (.inr hy)
  | exec i ip argv =>
      rintro bin phdrs rfl hph
      by_cases hlen : s.mem.freelist.length ≤ 12
      · left
        obtain ⟨t, hrun, hnil⟩ := exec_leaks h argv hp hph hlen
        have hperm : t.mem.freelist.Perm s.mem.freelist := (hfree false t hrun).2 rfl
        rw [← hperm.length_eq, hnil, List.length_nil]
      · right
        refine ⟨by omega, ?_⟩
        by_contra hbad
        exact hstray ⟨bin, phdrs, rfl, hph, by omega, hbad⟩
  | wait j => trivial

theorem Isolated.step {r : Bool} (h : Isolated k s) (hok : Spared s c) (hrun : execute k c s = .ok (r, t)) :
    Isolated k t := by
  obtain ⟨⟨hacc, hpages⟩, -⟩ := execute_settled h.accounted hok hrun
  exact h.of_le hacc (le_of_eq hpages)

end Calls

/-! ## Runs -/

/-- **Running out of memory.**  After every run of spared calls no page is free and belongs to a process; the next
call leaks nothing if it is spared, and only then, unless it is an `exec` that loads a segment where it should
not. -/
theorem oom_leaks_nothing {k : Link} {s t : Machine} {cs : List Call} {rs : List Bool} (h : Isolated k s)
    (hrun : Chain (execute k) Spared s cs rs t) (c : Call) (hproc : t.procs c.proc ≠ none) :
    (∀ i p, t.procs i = some p → ∀ y ∈ holding t.mem (some p), y ∉ t.mem.freelist) ∧
      (Spared t c → LeakFree k t c) ∧ (¬ Strays t c → LeakFree k t c → Spared t c) := by
  have ht : Isolated k t := hrun.invariant (fun _ _ _ _ hs hok hstep => hs.step hok hstep) h
  obtain ⟨p, hp⟩ := Option.ne_none_iff_exists'.mp hproc
  exact ⟨ht.accounted.not_free, leakFree_of_spared ht.accounted, spared_of_leakFree ht hp⟩

theorem oom_leaks_nothing_small : ∃ t, Chain (execute smallLink) Spared (smallMachine [])
      [.fork ⟨0, by decide⟩] [false] t ∧
    (∀ i p, t.procs i = some p → ∀ y ∈ holding t.mem (some p), y ∉ t.mem.freelist) ∧
      (Spared t (.fork ⟨0, by decide⟩) → LeakFree smallLink t (.fork ⟨0, by decide⟩)) ∧
      (¬ Strays t (.fork ⟨0, by decide⟩) → LeakFree smallLink t (.fork ⟨0, by decide⟩) →
        Spared t (.fork ⟨0, by decide⟩)) := by
  have hrun : Chain (execute smallLink) Spared (smallMachine []) [.fork ⟨0, by decide⟩] [false]
      (smallMachine []) := .cons (.inr (.inl (by decide))) smallMachine_fork (.nil _)
  exact ⟨_, hrun, oom_leaks_nothing smallMachine_isolated hrun (.fork ⟨0, by decide⟩)
    (by simp [smallMachine, Call.proc])⟩

/-- With two free pages `fork` takes both, fails, and gives one of them back. -/
theorem not_oom_leaks_nothing : ∃ u, Accounted (smallMachine [3000, 3001]) ∧
    execute smallLink (.fork ⟨0, by decide⟩) (smallMachine [3000, 3001]) = .ok (false, u) ∧
      3001 ∈ (smallMachine [3000, 3001]).mem.freelist ∧ 3001 ∉ u.mem.freelist := by
  refine ⟨_, smallMachine_accounted (by decide), rfl, by decide, by decide⟩

end Vm
end Xv6
end LfsXv6
