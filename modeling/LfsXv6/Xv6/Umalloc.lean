import LfsXv6.Lib.Run

/-!
# Umalloc — the allocator of the user library

The free blocks form a circular list in the order of their addresses, which starts at the static header
`base` of size 0.  `malloc` takes the first block from `freep` on that is large enough, or the end of it;
`free` puts a block back in its place and joins it with its neighbours; `morecore` frees what `sbrk`
returned.

Addresses and sizes are counted in headers (eight bytes), and addresses from `base`, which lies below the
memory that `sbrk` hands out.  `sbrk` takes an `int`: a program that asks for 2 GiB shrinks instead, and
such requests are left out here.
-/

namespace LfsXv6
namespace Xv6
namespace Umalloc

open Lib

/-! ## The allocator -/

/-- `union header`, or the contents of eight bytes of a block. -/
structure Header where
  ptr : Nat
  size : Nat
  deriving DecidableEq, Repr

/-- The address of the static header. -/
abbrev base : Nat := 0

/-- The memory, `freep`, and the end of the memory of the process. -/
structure Heap where
  mem : Nat → Header
  freep : Option Nat
  brk : Nat

namespace Heap

/-- The loop of `free`: the block behind which `bp` belongs. -/
def findLoop (mem : Nat → Header) (bp : Nat) : Nat → Nat → Option Nat
  | 0, _ => none
  | n + 1, p =>
      if p < bp ∧ bp < (mem p).ptr then some p
      else if (mem p).ptr ≤ p ∧ (p < bp ∨ bp < (mem p).ptr) then some p
      else findLoop mem bp n (mem p).ptr

/-- The rest of `free`: insert `bp` behind `p`. -/
def join (mem : Nat → Header) (bp p : Nat) : Nat → Header :=
  let next := (mem p).ptr
  let mem₁ :=
    if bp + (mem bp).size = next then
      Function.update mem bp ⟨(mem next).ptr, (mem bp).size + (mem next).size⟩
    else Function.update mem bp { mem bp with ptr := next }
  if p + (mem₁ p).size = bp then
    Function.update mem₁ p ⟨(mem₁ bp).ptr, (mem₁ p).size + (mem₁ bp).size⟩
  else Function.update mem₁ p { mem₁ p with ptr := bp }

/-- `free`; no result means that it does not return. -/
def free (h : Heap) (ap : Nat) : Option Heap :=
  match h.freep with
  | none => none
  | some f =>
      match findLoop h.mem (ap - 1) (h.brk + 2) f with
      | none => none
      | some p => some { h with mem := join h.mem (ap - 1) p, freep := some p }

/-- `morecore`; `ok` says that `sbrk` succeeds. -/
def morecore (h : Heap) (nu : Nat) (ok : Bool) : Option (Option Nat × Heap) :=
  let nu := if nu < 4096 then 4096 else nu
  if ok = false then some (none, h)
  else
    let hp := h.brk
    let h₁ : Heap :=
      { h with mem := Function.update h.mem hp { h.mem hp with size := nu }, brk := h.brk + nu }
    match h₁.free (hp + 1) with
    | none => none
    | some h₂ => some (h₂.freep, h₂)

/-- Take the block `p`, whose predecessor is `prevp`, or the end of it. -/
def take (h : Heap) (nunits prevp p : Nat) : Option Nat × Heap :=
  if (h.mem p).size = nunits then
    (some (p + 1),
      { h with
        mem := Function.update h.mem prevp { h.mem prevp with ptr := (h.mem p).ptr }
        freep := some prevp })
  else
    let size := (h.mem p).size - nunits
    let mem₁ := Function.update h.mem p { h.mem p with size := size }
    let q := p + size
    (some (q + 1),
      { h with mem := Function.update mem₁ q { mem₁ q with size := nunits }, freep := some prevp })

def mallocLoop (nunits : Nat) (ok : Bool) : Nat → Heap → Nat → Nat → Option (Option Nat × Heap)
  | 0, _, _, _ => none
  | n + 1, h, prevp, p =>
      if nunits ≤ (h.mem p).size then some (h.take nunits prevp p)
      else if h.freep = some p then
        match h.morecore nunits ok with
        | none => none
        | some (none, h') => some (none, h')
        | some (some p', h') => mallocLoop nunits ok n h' p' (h'.mem p').ptr
      else mallocLoop nunits ok n h p (h.mem p).ptr

def nunits (nbytes : UInt32) : Nat := ((nbytes + 8 - 1) / 8 + 1).toNat

/-- `malloc`: the address it returns, if any; no result means that it does not return. -/
def malloc (h : Heap) (nbytes : UInt32) (ok : Bool) : Option (Option Nat × Heap) :=
  match h.freep with
  | none =>
      let h₁ : Heap := { h with mem := Function.update h.mem base ⟨base, 0⟩, freep := some base }
      mallocLoop (nunits nbytes) ok (2 * h.brk + 8) h₁ base (h₁.mem base).ptr
  | some f => mallocLoop (nunits nbytes) ok (2 * h.brk + 8) h f (h.mem f).ptr

end Heap

/-! ## Lists of blocks -/

/-- A block: the address of its header, and its size with the header. -/
abbrev Block := Nat × Nat

/-- The address of the first block of a list that is followed by `z`. -/
def first (l : List Block) (z : Nat) : Nat :=
  match l with
  | [] => z
  | x :: _ => x.1

/-- The blocks of the list are linked, and the last one to `z`. -/
def Chain (mem : Nat → Header) : List Block → Nat → Prop
  | [], _ => True
  | x :: l, z => mem x.1 = ⟨first l z, x.2⟩ ∧ Chain mem l z

/-- Two blocks do not overlap. -/
def Apart (x y : Block) : Prop := x.1 + x.2 ≤ y.1 ∨ y.1 + y.2 ≤ x.1

instance : Std.Symm Apart := ⟨fun _ _ h => Or.symm h⟩

/-- `y` lies behind `x`, and not right behind it. -/
def Below (x y : Block) : Prop := x.1 + x.2 < y.1

section Chain

variable {mem mem' : Nat → Header} {l l₁ l₂ : List Block} {x y : Block} {z : Nat}

theorem first_append : first (l₁ ++ l₂) z = first l₁ (first l₂ z) := by
  cases l₁ <;> rfl

theorem chain_append : Chain mem (l₁ ++ l₂) z ↔ Chain mem l₁ (first l₂ z) ∧ Chain mem l₂ z := by
  induction l₁ with
  | nil => simp [Chain]
  | cons x l ih => rw [List.cons_append, Chain, ih, first_append, Chain, and_assoc]

theorem Chain.congr (h : Chain mem l z) (heq : ∀ x ∈ l, mem' x.1 = mem x.1) : Chain mem' l z := by
  induction l with
  | nil => trivial
  | cons x l ih =>
      refine ⟨?_, ih h.2 fun y hy => heq y (List.mem_cons_of_mem _ hy)⟩
      rw [heq x List.mem_cons_self]
      exact h.1

theorem Chain.size (h : Chain mem l z) (hx : x ∈ l) : (mem x.1).size = x.2 := by
  induction l with
  | nil => cases hx
  | cons y l ih =>
      rcases List.mem_cons.mp hx with rfl | hx
      · rw [h.1]
      · exact ih h.2 hx

end Chain

/-- The blocks `free`, the first of which is `base`, are the free list, and the blocks `used` are in use. -/
structure Heap.Sound (h : Heap) (free used : List Block) : Prop where
  chain : Chain h.mem free base
  head : free.head? = some (base, 0)
  freep : ∃ f ∈ free, h.freep = some f.1
  sorted : free.Pairwise Below
  pos : ∀ x ∈ free, x.1 ≠ base → 0 < x.2
  header : ∀ x ∈ used, (h.mem x.1).size = x.2 ∧ 0 < x.2 ∧ base < x.1
  apart : ∀ x ∈ used, ∀ y ∈ free, Apart x y
  disjoint : used.Pairwise Apart
  bound : ∀ x, x ∈ free ∨ x ∈ used → x.1 + x.2 ≤ h.brk
  brk_pos : base < h.brk

/-! ## Where a block belongs -/

section Find

variable {mem : Nat → Header} {bp n f p : Nat} {l C D : List Block} {x y : Block} {z : Nat}

/-- The loop of `free` stops at `p`. -/
def Stops (mem : Nat → Header) (bp p : Nat) : Prop :=
  p < bp ∧ bp < (mem p).ptr ∨ (mem p).ptr ≤ p ∧ (p < bp ∨ bp < (mem p).ptr)

theorem findLoop_stop (h : Stops mem bp p) : Heap.findLoop mem bp (n + 1) p = some p := by
  rw [Heap.findLoop]
  rcases h with h | h
  · rw [if_pos h]
  · rw [if_pos h, ite_self]

theorem findLoop_next (h : ¬ Stops mem bp p) :
    Heap.findLoop mem bp (n + 1) p = Heap.findLoop mem bp n (mem p).ptr := by
  obtain ⟨h₁, h₂⟩ := not_or.mp h
  rw [Heap.findLoop, if_neg h₁, if_neg h₂]

theorem findLoop_skip (h : Chain mem l z) (hno : ∀ x ∈ l, ¬ Stops mem bp x.1) :
    Heap.findLoop mem bp (n + l.length) (first l z) = Heap.findLoop mem bp n z := by
  induction l with
  | nil => rfl
  | cons x l ih =>
      rw [List.length_cons, ← Nat.add_assoc, first, findLoop_next (hno x List.mem_cons_self), h.1]
      exact ih h.2 fun y hy => hno y (List.mem_cons_of_mem _ hy)

theorem Below.lt (h : Below x y) : x.1 < y.1 := by
  unfold Below at h
  omega

/-- The block behind which `bp` belongs. -/
theorem exists_split (hx : x.1 < bp) (hne : ∀ y ∈ l, y.1 ≠ bp) (hl : (x :: l).Pairwise Below) :
    ∃ C y D, x :: l = C ++ y :: D ∧ y.1 < bp ∧ ∀ z ∈ D, bp < z.1 := by
  induction l generalizing x with
  | nil => exact ⟨[], x, [], rfl, hx, by simp⟩
  | cons y l ih =>
      have htail := (List.pairwise_cons.mp hl).2
      by_cases hy : y.1 < bp
      · obtain ⟨C, y', D, heq, hlt, hD⟩ := ih hy (fun z hz => hne z (List.mem_cons_of_mem _ hz)) htail
        exact ⟨x :: C, y', D, by rw [heq]; rfl, hlt, hD⟩
      · refine ⟨[], x, y :: l, rfl, hx, ?_⟩
        have hbp : bp < y.1 := by
          have := hne y List.mem_cons_self
          omega
        intro z hz
        rcases List.mem_cons.mp hz with rfl | hz
        · exact hbp
        · exact hbp.trans ((List.pairwise_cons.mp htail).1 z hz).lt

/-- The loop of `free` finds it, wherever it starts. -/
theorem findLoop_eq (hchain : Chain mem (C ++ x :: D) base) (hhead : first (C ++ x :: D) base = base)
    (hsorted : (C ++ x :: D).Pairwise Below) (hx : x.1 < bp) (hD : ∀ y ∈ D, bp < y.1)
    {f : Block} (hf : f ∈ C ++ x :: D) (hn : (C ++ x :: D).length < n) :
    Heap.findLoop mem bp n f.1 = some x.1 := by
  have hrest : Chain mem (x :: D) base := (chain_append.mp hchain).2
  have hxptr : (mem x.1).ptr = first D base := by rw [hrest.1]
  have hfound : ∀ m, Heap.findLoop mem bp (m + 1) x.1 = some x.1 := by
    intro m
    refine findLoop_stop ?_
    cases D with
    | nil => exact Or.inr ⟨by simp [hxptr, first], Or.inl hx⟩
    | cons y D => exact Or.inl ⟨hx, by rw [hxptr]; exact hD y List.mem_cons_self⟩
  -- before `x`, the blocks and their successors lie below `bp`
  have hC : ∀ c ∈ C, ¬ Stops mem bp c.1 := by
    intro c hc
    obtain ⟨C₁, C₂, rfl⟩ := List.append_of_mem hc
    rw [List.append_assoc, List.cons_append] at hchain hsorted
    have hptr : (mem c.1).ptr = first (C₂ ++ x :: D) base := by rw [(chain_append.mp hchain).2.1]
    have hbelow := (List.pairwise_cons.mp (List.pairwise_append.mp hsorted).2.1).1
    have hpair := (List.pairwise_cons.mp (List.pairwise_append.mp hsorted).2.1).2
    have hnext : c.1 < first (C₂ ++ x :: D) base ∧ first (C₂ ++ x :: D) base ≤ x.1 := by
      cases C₂ with
      | nil => exact ⟨(hbelow x (by simp)).lt, Nat.le_refl _⟩
      | cons d C₂ => exact ⟨(hbelow d (by simp)).lt, ((List.pairwise_cons.mp hpair).1 x (by simp)).lt.le⟩
    unfold Stops
    rw [hptr]
    omega
  have hDno : ∀ y ∈ D, ¬ Stops mem bp y.1 := by
    intro y hy
    have hby := hD y hy
    obtain ⟨D₁, D₂, rfl⟩ := List.append_of_mem hy
    have hptr : (mem y.1).ptr = first D₂ base := by rw [(chain_append.mp hrest.2).2.1]
    have hbelow := (List.pairwise_cons.mp (List.pairwise_append.mp
      (List.pairwise_cons.mp (List.pairwise_append.mp hsorted).2.1).2).2.1).1
    unfold Stops
    rw [hptr]
    cases D₂ with
    | nil =>
        show ¬ (y.1 < bp ∧ bp < 0 ∨ 0 ≤ y.1 ∧ (y.1 < bp ∨ bp < 0))
        omega
    | cons d D₂ =>
        have := (hbelow d List.mem_cons_self).lt
        simp only [first]
        omega
  have hseg : ∀ {l : List Block} {z m : Nat}, Chain mem l z → (∀ y ∈ l, ¬ Stops mem bp y.1) →
      l.length ≤ m → Heap.findLoop mem bp m (first l z) = Heap.findLoop mem bp (m - l.length) z := by
    intro l z m hl hno hm
    conv_lhs => rw [← Nat.sub_add_cancel hm]
    exact findLoop_skip hl hno
  have hlen : (C ++ x :: D).length = C.length + D.length + 1 := by
    rw [List.length_append, List.length_cons]
    omega
  have hfromx : ∀ m, 1 ≤ m → Heap.findLoop mem bp m x.1 = some x.1 := by
    intro m hm
    rw [← Nat.sub_add_cancel hm]
    exact hfound _
  rcases List.mem_append.mp hf with hfC | hf
  · obtain ⟨C₁, C₂, rfl⟩ := List.append_of_mem hfC
    have hchain' : Chain mem (f :: C₂) x.1 := by
      rw [List.append_assoc] at hchain
      exact (chain_append.mp (chain_append.mp hchain).2).1
    have hlen' : (f :: C₂).length ≤ (C₁ ++ f :: C₂).length := by simp
    have hskip := hseg (m := n) hchain' (fun y hy => hC y (List.mem_append_right _ hy)) (by omega)
    rw [first] at hskip
    rw [hskip]
    exact hfromx _ (by omega)
  · rcases List.mem_cons.mp hf with rfl | hfD
    · exact hfromx n (by omega)
    · obtain ⟨D₁, D₂, rfl⟩ := List.append_of_mem hfD
      have hlen' : (f :: D₂).length ≤ (D₁ ++ f :: D₂).length := by simp
      have hback := hseg (m := n) (chain_append.mp hrest.2).2
        (fun y hy => hDno y (List.mem_append_right _ hy)) (by omega)
      have hstart : first C x.1 = base := by
        rw [← hhead, first_append]
        rfl
      have hforth := hseg (m := n - (f :: D₂).length) (chain_append.mp hchain).1 hC (by omega)
      rw [first] at hback
      rw [show first (x :: (D₁ ++ f :: D₂)) base = x.1 from rfl, hstart] at hforth
      rw [hback, hforth]
      exact hfromx _ (by omega)

end Find

/-! ## Freeing -/

section Join

variable {mem : Nat → Header} {b x y z : Block} {C D used : List Block}

/-- The memory of the blocks of a list. -/
def units (l : List Block) : Nat := (l.map Prod.snd).sum

theorem units_append (l₁ l₂ : List Block) : units (l₁ ++ l₂) = units l₁ + units l₂ := by
  simp [units]

theorem units_cons (x : Block) (l : List Block) : units (x :: l) = x.2 + units l := by
  simp [units]

/-- A block is joined with the block right behind it: `b` grows to the size `s`, and `D'` is left behind. -/
structure Grown (b : Block) (D : List Block) (s : Nat) (D' : List Block) : Prop where
  suffix : D' <:+ D
  below : ((b.1, s) :: D').Pairwise Below
  size_le : b.2 ≤ s
  units_eq : s + units D' = b.2 + units D
  apart : ∀ z, 0 < z.2 → Apart z b → (∀ y ∈ D, Apart z y) → Apart z (b.1, s)
  bound : ∀ n, b.1 + b.2 ≤ n → (∀ y ∈ D, y.1 + y.2 ≤ n) → b.1 + s ≤ n

theorem exists_grown (hchain : Chain mem (x :: D) base) (hD : D.Pairwise Below)
    (hb : ∀ y ∈ D, b.1 + b.2 ≤ y.1) (hpos : 0 < b.2) (hsize : (mem b.1).size = b.2) :
    ∃ s D', Grown b D s D' ∧
      (if b.1 + (mem b.1).size = (mem x.1).ptr then
        Function.update mem b.1 ⟨(mem (mem x.1).ptr).ptr, (mem b.1).size + (mem (mem x.1).ptr).size⟩
      else Function.update mem b.1 { mem b.1 with ptr := (mem x.1).ptr }) =
        Function.update mem b.1 ⟨first D' base, s⟩ := by
  have hptr : (mem x.1).ptr = first D base := by rw [hchain.1]
  rw [hsize, hptr]
  cases D with
  | nil =>
      have hne : ¬ b.1 + b.2 = first [] base := by
        show ¬ b.1 + b.2 = 0
        omega
      refine ⟨b.2, [], ⟨List.suffix_rfl, by simp, Nat.le_refl _, rfl, ?_, ?_⟩, ?_⟩
      · exact fun z _ hz _ => hz
      · exact fun n hn _ => hn
      · rw [if_neg hne, ← hsize]
  | cons y D =>
      have hy : mem y.1 = ⟨first D base, y.2⟩ := hchain.2.1
      have hyD := List.pairwise_cons.mp hD
      show ∃ s D', Grown b (y :: D) s D' ∧ (if b.1 + b.2 = y.1 then _ else _) = _
      rw [first, hy]
      by_cases hjoin : b.1 + b.2 = y.1
      · refine ⟨b.2 + y.2, D, ⟨List.suffix_cons _ _, ?_, by omega, ?_, ?_, ?_⟩, ?_⟩
        · refine List.pairwise_cons.mpr ⟨fun z hz => ?_, hyD.2⟩
          have := hyD.1 z hz
          unfold Below at this ⊢
          show b.1 + (b.2 + y.2) < z.1
          omega
        · rw [units_cons]
          omega
        · intro z hz hzb hzD
          have hzy := hzD y List.mem_cons_self
          unfold Apart at *
          simp only
          omega
        · intro n _ hn
          have := hn y List.mem_cons_self
          omega
        · rw [if_pos hjoin]
      · refine ⟨b.2, y :: D, ⟨List.suffix_rfl, ?_, Nat.le_refl _, rfl, ?_, ?_⟩, ?_⟩
        · refine List.pairwise_cons.mpr ⟨fun z hz => ?_, hD⟩
          have hby := hb y List.mem_cons_self
          show b.1 + b.2 < z.1
          rcases List.mem_cons.mp hz with rfl | hz
          · omega
          · have := (hyD.1 z hz).lt
            omega
        · exact fun z _ hz _ => hz
        · exact fun n hn _ => hn
        · rw [if_neg hjoin, ← hsize, first]

end Join

namespace Heap

variable {h h' : Heap} {free used used' : List Block} {b x y z : Block} {C D : List Block}

/-- The memory of the blocks in use is the same. -/
def Kept (h h' : Heap) (used : List Block) : Prop :=
  ∀ z ∈ used, ∀ u, z.1 ≤ u → u < z.1 + z.2 → h'.mem u = h.mem u

namespace Sound

theorem sublist (hs : Sound h free used) (hsub : used'.Sublist used) : Sound h free used' where
  chain := hs.chain
  head := hs.head
  freep := hs.freep
  sorted := hs.sorted
  pos := hs.pos
  header x hx := hs.header x (hsub.subset hx)
  apart x hx := hs.apart x (hsub.subset hx)
  disjoint := hs.disjoint.sublist hsub
  bound x hx := hs.bound x (hx.imp_right fun hx => hsub.subset hx)
  brk_pos := hs.brk_pos

theorem length_le (hs : Sound h free used) : free.length ≤ h.brk + 1 := by
  have hnodup : (free.map Prod.fst).Nodup :=
    List.pairwise_map.mpr (hs.sorted.imp fun hxy => hxy.lt.ne)
  have hsub : (free.map Prod.fst).toFinset ⊆ Finset.range (h.brk + 1) := by
    intro a ha
    obtain ⟨x, hx, rfl⟩ := List.mem_map.mp (List.mem_toFinset.mp ha)
    have := hs.bound x (Or.inl hx)
    exact Finset.mem_range.mpr (by omega)
  have hcard := Finset.card_le_card hsub
  rwa [List.toFinset_card_of_nodup hnodup, List.length_map, Finset.card_range] at hcard

/-- No header of the free list lies in a block that is apart from the free list. -/
theorem header_out (hs : Sound h free used) (hx : x ∈ free) (hz : base < z.1) (hzx : Apart z x) : x.1 < z.1 ∨ z.1 + z.2 ≤ x.1 := by
  by_cases hbase : x.1 = base
  · exact Or.inl (hbase ▸ hz)
  · have := hs.pos x hx hbase
    unfold Apart at hzx
    omega

theorem kept_update {mem : Nat → Header} {a : Nat} {v : Header} (hz : a < z.1 ∨ z.1 + z.2 ≤ a) {u : Nat}
    (hu : z.1 ≤ u) (hu' : u < z.1 + z.2) : Function.update mem a v u = mem u :=
  Function.update_of_ne (by omega) ..

/-- The free list changes from the block `x` on. -/
theorem replace (hs : Sound h (C ++ x :: D) used) {n : Block} {N : List Block} (hn : n.1 = x.1)
    (hn₀ : x.1 = base → n.2 = x.2) (hbrk : h'.brk = h.brk) (hfreep : h'.freep = some x.1)
    (hchain : Chain h'.mem (n :: N) base) (hC : ∀ c ∈ C, h'.mem c.1 = h.mem c.1)
    (hheader : ∀ z ∈ used, h'.mem z.1 = h.mem z.1) (hsorted : (n :: N).Pairwise Below)
    (hpos : ∀ y ∈ n :: N, y.1 ≠ base → 0 < y.2) (hapart : ∀ z ∈ used, ∀ y ∈ n :: N, Apart z y)
    (hbound : ∀ y ∈ n :: N, y.1 + y.2 ≤ h.brk) : Sound h' (C ++ n :: N) used where
  chain := by
    refine chain_append.mpr ⟨?_, hchain⟩
    have hfirst : first (n :: N) base = first (x :: D) base := hn
    rw [hfirst]
    exact (chain_append.mp hs.chain).1.congr hC
  head := by
    have hhead := hs.head
    cases C with
    | nil =>
        cases hhead
        exact congrArg some (Prod.ext hn (hn₀ rfl))
    | cons c C => exact hhead
  freep := ⟨n, by simp, by rw [hfreep, hn]⟩
  sorted := by
    obtain ⟨hCs, _, hCx⟩ := List.pairwise_append.mp hs.sorted
    refine List.pairwise_append.mpr ⟨hCs, hsorted, ?_⟩
    intro c hc y hy
    have hcx := hCx c hc x List.mem_cons_self
    rcases List.mem_cons.mp hy with rfl | hy
    · unfold Below at hcx ⊢
      omega
    · have := ((List.pairwise_cons.mp hsorted).1 y hy).lt
      unfold Below at hcx ⊢
      omega
  pos y hy := by
    rcases List.mem_append.mp hy with hy | hy
    · exact hs.pos y (List.mem_append_left _ hy)
    · exact hpos y hy
  header z hz := by
    rw [hheader z hz]
    exact hs.header z hz
  apart z hz y hy := by
    rcases List.mem_append.mp hy with hy | hy
    · exact hs.apart z hz y (List.mem_append_left _ hy)
    · exact hapart z hz y hy
  disjoint := hs.disjoint
  bound y hy := by
    rw [hbrk]
    rcases hy with hy | hy
    · rcases List.mem_append.mp hy with hy | hy
      · exact hs.bound y (Or.inl (List.mem_append_left _ hy))
      · exact hbound y hy
    · exact hs.bound y (Or.inr hy)
  brk_pos := by
    rw [hbrk]
    exact hs.brk_pos

/-- The block `b` belongs between `x` and `D`.  Joined with the block right behind it, it has the size `s`,
and `D'` is left of `D`. -/
structure Place (h : Heap) (C : List Block) (x : Block) (D used : List Block) (b : Block) (s : Nat)
    (D' : List Block) : Prop where
  sound : Sound h (C ++ x :: D) used
  lt : x.1 < b.1
  ends : x.1 + x.2 ≤ b.1
  base_size : x.1 = base → x.2 = 0
  above : ∀ y ∈ D, b.1 < y.1
  grown : Grown b D s D'
  pos : 0 < b.2
  used_apart : ∀ z ∈ used, Apart b z
  bound : b.1 + b.2 ≤ h.brk

/-- `b` is linked in front of `D'` with the size `s`, and the header of `x` becomes `v`. -/
def relinked (h : Heap) (x b : Block) (s : Nat) (D' : List Block) (v : Header) : Heap :=
  { h with
    mem := Function.update (Function.update h.mem b.1 ⟨first D' base, s⟩) x.1 v
    freep := some x.1 }

namespace Place

variable {D' : List Block} {s : Nat} {v : Header}

theorem size_pos (h₀ : Place h C x D used b s D') : 0 < s := h₀.pos.trans_le h₀.grown.size_le

theorem kept (h₀ : Place h C x D used b s D') (v : Header) : Kept h (relinked h x b s D' v) used := by
  intro z hz u hu hu'
  have hzb : Apart b z := h₀.used_apart z hz
  have hzx : x.1 < z.1 ∨ z.1 + z.2 ≤ x.1 :=
    h₀.sound.header_out (by simp) (h₀.sound.header z hz).2.2 (h₀.sound.apart z hz x (by simp))
  have hpos := h₀.pos
  unfold Apart at hzb
  exact (kept_update hzx hu hu').trans (kept_update (z := z) (by omega) hu hu')

theorem header (h₀ : Place h C x D used b s D') (v : Header) (hz : z ∈ used) :
    (relinked h x b s D' v).mem z.1 = h.mem z.1 :=
  h₀.kept v z hz z.1 (Nat.le_refl _) (by have := (h₀.sound.header z hz).2.1; omega)

theorem before (h₀ : Place h C x D used b s D') (v : Header) {c : Block} (hc : c ∈ C) :
    (relinked h x b s D' v).mem c.1 = h.mem c.1 := by
  have hlt := ((List.pairwise_append.mp h₀.sound.sorted).2.2 c hc x List.mem_cons_self).lt
  have hb := h₀.lt
  exact (Function.update_of_ne (by omega) ..).trans (Function.update_of_ne (by omega) ..)

/-- The blocks behind stay linked. -/
theorem chain (h₀ : Place h C x D used b s D') (v : Header) :
    Chain (relinked h x b s D' v).mem D' base := by
  have hrest : Chain h.mem D base := (chain_append.mp h₀.sound.chain).2.2
  have hchain : Chain h.mem D' base := by
    obtain ⟨D₀, hD₀⟩ := h₀.grown.suffix
    rw [← hD₀] at hrest
    exact (chain_append.mp hrest).2
  refine hchain.congr fun y hy => ?_
  have hlt := h₀.above y (h₀.grown.suffix.subset hy)
  have hb := h₀.lt
  exact (Function.update_of_ne (by omega) ..).trans (Function.update_of_ne (by omega) ..)

theorem mem_free (h₀ : Place h C x D used b s D') (hy : y ∈ D') : y ∈ C ++ x :: D := by
  simp [h₀.grown.suffix.subset hy]

theorem apart (h₀ : Place h C x D used b s D') (hz : z ∈ used) : Apart z (b.1, s) :=
  h₀.grown.apart z (h₀.sound.header z hz).2.1 (Or.symm (h₀.used_apart z hz)) fun y hy =>
    h₀.sound.apart z hz y (by simp [hy])

theorem grown_bound (h₀ : Place h C x D used b s D') : b.1 + s ≤ h.brk :=
  h₀.grown.bound h.brk h₀.bound fun y hy => h₀.sound.bound y (Or.inl (by simp [hy]))

/-- `b` is joined with the block in front of it. -/
theorem joined (h₀ : Place h C x D used b s D') (hmerge : x.1 + x.2 = b.1) :
    Sound (relinked h x b s D' ⟨first D' base, x.2 + s⟩) (C ++ (x.1, x.2 + s) :: D') used := by
  have hpos := h₀.size_pos
  refine h₀.sound.replace rfl ?_ rfl rfl ⟨Function.update_self .., h₀.chain _⟩ (fun _ => h₀.before _)
    (fun _ => h₀.header _) ?_ ?_ ?_ ?_
  · intro hx0
    have := h₀.base_size hx0
    have := h₀.lt
    omega
  · refine List.pairwise_cons.mpr ⟨fun y hy => ?_, (List.pairwise_cons.mp h₀.grown.below).2⟩
    have := (List.pairwise_cons.mp h₀.grown.below).1 y hy
    unfold Below at this ⊢
    simp only at this ⊢
    omega
  · intro y hy
    rcases List.mem_cons.mp hy with rfl | hy
    · exact fun _ => Nat.lt_add_left _ hpos
    · exact h₀.sound.pos y (h₀.mem_free hy)
  · intro z hz y hy
    rcases List.mem_cons.mp hy with rfl | hy
    · have h₁ := h₀.sound.apart z hz x (by simp)
      have h₂ := h₀.apart hz
      have h₃ := (h₀.sound.header z hz).2.1
      unfold Apart at *
      simp only at h₂ ⊢
      omega
    · exact h₀.sound.apart z hz y (h₀.mem_free hy)
  · intro y hy
    rcases List.mem_cons.mp hy with rfl | hy
    · have := h₀.grown_bound
      show x.1 + (x.2 + s) ≤ h.brk
      omega
    · exact h₀.sound.bound y (Or.inl (h₀.mem_free hy))

/-- `b` lies apart from the block in front of it. -/
theorem separate (h₀ : Place h C x D used b s D') (hgap : x.1 + x.2 ≠ b.1) :
    Sound (relinked h x b s D' ⟨b.1, x.2⟩) (C ++ x :: (b.1, s) :: D') used := by
  have hne : b.1 ≠ x.1 := h₀.lt.ne'
  have hxD := (List.pairwise_cons.mp (List.pairwise_append.mp h₀.sound.sorted).2.1).1
  refine h₀.sound.replace rfl (fun _ => rfl) rfl rfl ⟨Function.update_self .., ?_, h₀.chain _⟩
    (fun _ => h₀.before _) (fun _ => h₀.header _) ?_ ?_ ?_ ?_
  · exact (Function.update_of_ne hne ..).trans (Function.update_self ..)
  · refine List.pairwise_cons.mpr ⟨fun y hy => ?_, h₀.grown.below⟩
    rcases List.mem_cons.mp hy with rfl | hy
    · have := h₀.ends
      unfold Below
      simp only
      omega
    · exact hxD y (h₀.grown.suffix.subset hy)
  · intro y hy
    rcases List.mem_cons.mp hy with rfl | hy
    · exact h₀.sound.pos y (by simp)
    · rcases List.mem_cons.mp hy with rfl | hy
      · exact fun _ => h₀.size_pos
      · exact h₀.sound.pos y (h₀.mem_free hy)
  · intro z hz y hy
    rcases List.mem_cons.mp hy with rfl | hy
    · exact h₀.sound.apart z hz y (by simp)
    · rcases List.mem_cons.mp hy with rfl | hy
      · exact h₀.apart hz
      · exact h₀.sound.apart z hz y (h₀.mem_free hy)
  · intro y hy
    rcases List.mem_cons.mp hy with rfl | hy
    · exact h₀.sound.bound y (Or.inl (by simp))
    · rcases List.mem_cons.mp hy with rfl | hy
      · exact h₀.grown_bound
      · exact h₀.sound.bound y (Or.inl (h₀.mem_free hy))

end Place

/-- Where `free` puts a block that belongs to nobody, and what it does there. -/
theorem exists_place (hs : Sound h free used) (hsize : (h.mem b.1).size = b.2) (hpos : 0 < b.2)
    (hbase : base < b.1) (hfree : ∀ y ∈ free, Apart b y) (hused : ∀ z ∈ used, Apart b z)
    (hbound : b.1 + b.2 ≤ h.brk) : ∃ C x D s D', free = C ++ x :: D ∧ Place h C x D used b s D' ∧
      h.free (b.1 + 1) = some (relinked h x b s D'
        (if x.1 + x.2 = b.1 then ⟨first D' base, x.2 + s⟩ else ⟨b.1, x.2⟩)) := by
  obtain ⟨l, rfl⟩ : ∃ l, free = (base, 0) :: l := List.head?_eq_some_iff.mp hs.head
  have hout : ∀ y ∈ (base, 0) :: l, y.1 < b.1 ∨ b.1 + b.2 ≤ y.1 := fun y hy =>
    hs.header_out hy hbase (hfree y hy)
  obtain ⟨C, x, D, heq, hx, hD⟩ := exists_split (x := (base, 0)) hbase
    (fun y hy => by have := hout y (List.mem_cons_of_mem _ hy); omega) hs.sorted
  have hhead : first (C ++ x :: D) base = base := by rw [← heq]; rfl
  have hbasemem : (base, 0) ∈ C ++ x :: D := by rw [← heq]; simp
  rw [heq] at hs hfree hout ⊢
  have hrest : Chain h.mem (x :: D) base := (chain_append.mp hs.chain).2
  have hDsorted : (x :: D).Pairwise Below := (List.pairwise_append.mp hs.sorted).2.1
  have hDout : ∀ y ∈ D, b.1 + b.2 ≤ y.1 := by
    intro y hy
    have := hout y (by simp [hy])
    have := hD y hy
    omega
  have hx2 : x.1 = base → x.2 = 0 := by
    intro hx0
    have hxmem := hs.chain.size (x := x) (by simp)
    rw [hx0, hs.chain.size hbasemem] at hxmem
    exact hxmem.symm
  have hxb : x.1 + x.2 ≤ b.1 := by
    by_cases hx0 : x.1 = base
    · have := hx2 hx0
      omega
    · have := hs.pos x (by simp) hx0
      have hapart := hfree x (by simp)
      unfold Apart at hapart
      omega
  obtain ⟨s, D', hgrown, hmem⟩ := exists_grown hrest (List.pairwise_cons.mp hDsorted).2 hDout hpos hsize
  refine ⟨C, x, D, s, D', rfl, ⟨hs, hx, hxb, hx2, hD, hgrown, hpos, hused, hbound⟩, ?_⟩
  obtain ⟨f, hf, hfreep⟩ := hs.freep
  have hfind := findLoop_eq hs.chain hhead hs.sorted hx hD hf
    (n := h.brk + 2) (by have := hs.length_le; omega)
  have hxmem : h.mem x.1 = ⟨first D base, x.2⟩ := hrest.1
  have hjoin : join h.mem b.1 x.1 = Function.update (Function.update h.mem b.1 ⟨first D' base, s⟩) x.1
      (if x.1 + x.2 = b.1 then ⟨first D' base, x.2 + s⟩ else ⟨b.1, x.2⟩) := by
    unfold join
    simp only
    rw [hmem, Function.update_of_ne hx.ne, hxmem, Function.update_self]
    split <;> rfl
  simp only [Heap.free, hfreep, Nat.add_sub_cancel, hfind, hjoin, relinked]

/-- A block that belongs to nobody is put back. -/
theorem release (hs : Sound h free used) (hsize : (h.mem b.1).size = b.2) (hpos : 0 < b.2)
    (hbase : base < b.1) (hfree : ∀ y ∈ free, Apart b y) (hused : ∀ z ∈ used, Apart b z)
    (hbound : b.1 + b.2 ≤ h.brk) :
    ∃ h' free', h.free (b.1 + 1) = some h' ∧ Sound h' free' used ∧ units free' = b.2 + units free ∧
      free'.length ≤ free.length + 1 ∧ h'.brk = h.brk ∧ Kept h h' used ∧ ∃ x ∈ free', b.2 ≤ x.2 := by
  obtain ⟨C, x, D, s, D', rfl, hplace, hrun⟩ := hs.exists_place hsize hpos hbase hfree hused hbound
  have hunits := hplace.grown.units_eq
  have hlength := hplace.grown.suffix.length_le
  have hle := hplace.grown.size_le
  by_cases hmerge : x.1 + x.2 = b.1
  · rw [if_pos hmerge] at hrun
    refine ⟨_, C ++ (x.1, x.2 + s) :: D', hrun, hplace.joined hmerge, ?_, ?_, rfl, hplace.kept _, ?_⟩
    · simp only [units_append, units_cons]
      omega
    · simp only [List.length_append, List.length_cons]
      omega
    · exact ⟨(x.1, x.2 + s), by simp, hle.trans (Nat.le_add_left _ _)⟩
  · rw [if_neg hmerge] at hrun
    refine ⟨_, C ++ x :: (b.1, s) :: D', hrun, hplace.separate hmerge, ?_, ?_, rfl, hplace.kept _, ?_⟩
    · simp only [units_append, units_cons]
      omega
    · simp only [List.length_append, List.length_cons]
      omega
    · exact ⟨(b.1, s), by simp, hle⟩

/-! ## Allocating -/

/-- `sbrk` has returned memory, which `morecore` frees. -/
theorem morecore (hs : Sound h free used) (nu : Nat) :
    ∃ h' free' f', h.morecore nu true = some (some f', h') ∧ h'.freep = some f' ∧ Sound h' free' used ∧
      units free' + h.brk = units free + h'.brk ∧ free'.length ≤ free.length + 1 ∧ h.brk ≤ h'.brk ∧
      Kept h h' used ∧ ∃ x ∈ free', nu ≤ x.2 := by
  have hbrk : ∀ y, y ∈ free ∨ y ∈ used → y.1 + y.2 ≤ h.brk := hs.bound
  have hge : nu ≤ if nu < 4096 then 4096 else nu := by split <;> omega
  have hpos : 0 < if nu < 4096 then 4096 else nu := by split <;> omega
  unfold Heap.morecore
  generalize (if nu < 4096 then 4096 else nu) = n at hge hpos
  let h₁ : Heap := { h with
    mem := Function.update h.mem h.brk { h.mem h.brk with size := n }, brk := h.brk + n }
  have hne : ∀ y ∈ free, y.1 ≠ h.brk := by
    intro y hy hc
    by_cases hy0 : y.1 = base
    · have := hs.brk_pos
      omega
    · have := hs.pos y hy hy0
      have := hbrk y (Or.inl hy)
      omega
  have hkept : Kept h h₁ used := by
    intro z hz u hu hu'
    have := hbrk z (Or.inr hz)
    exact Function.update_of_ne (by omega) ..
  have hs₁ : Sound h₁ free used :=
    { chain := hs.chain.congr fun y hy => Function.update_of_ne (hne y hy) ..
      head := hs.head
      freep := hs.freep
      sorted := hs.sorted
      pos := hs.pos
      header := fun z hz => by
        have hz' := hs.header z hz
        rw [hkept z hz z.1 (Nat.le_refl _) (by omega)]
        exact hz'
      apart := hs.apart
      disjoint := hs.disjoint
      bound := fun y hy => (hbrk y hy).trans (Nat.le_add_right _ _)
      brk_pos := hs.brk_pos.trans_le (Nat.le_add_right _ _) }
  have hsize₁ : (h₁.mem h.brk).size = n := by
    show (Function.update h.mem h.brk _ h.brk).size = n
    rw [Function.update_self]
  obtain ⟨h', free', hfree, hs', hunits, hlength, hbrk', hkept', x, hx, hsize⟩ := hs₁.release (b := (h.brk, n))
    hsize₁ hpos hs.brk_pos (fun y hy => Or.inr (hbrk y (Or.inl hy)))
    (fun z hz => Or.inr (hbrk z (Or.inr hz))) (Nat.le_refl _)
  obtain ⟨f, hf, hfreep⟩ := hs'.freep
  have hbrk'' : h'.brk = h.brk + n := hbrk'
  refine ⟨h', free', f.1, ?_, hfreep, hs', ?_, hlength, by omega, ?_, x, hx, hge.trans hsize⟩
  · rw [if_neg (by decide)]
    have hfree : h₁.free (h.brk + 1) = some h' := hfree
    change (match h₁.free (h.brk + 1) with | none => none | some h₂ => some (h₂.freep, h₂)) = _
    rw [hfree, ← hfreep]
  · simp only at hunits
    omega
  · intro z hz u hu hu'
    exact (hkept' z hz u hu hu').trans (hkept z hz u hu hu')

/-- A block that belongs to nobody is given away. -/
theorem add (hs : Sound h free used) (hsize : (h.mem b.1).size = b.2) (hpos : 0 < b.2) (hbase : base < b.1)
    (hfree : ∀ y ∈ free, Apart b y) (hused : ∀ z ∈ used, Apart b z) (hbound : b.1 + b.2 ≤ h.brk) :
    Sound h free (b :: used) where
  chain := hs.chain
  head := hs.head
  freep := hs.freep
  sorted := hs.sorted
  pos := hs.pos
  header z hz := by
    rcases List.mem_cons.mp hz with rfl | hz
    · exact ⟨hsize, hpos, hbase⟩
    · exact hs.header z hz
  apart z hz := by
    rcases List.mem_cons.mp hz with rfl | hz
    · exact hfree
    · exact hs.apart z hz
  disjoint := List.pairwise_cons.mpr ⟨hused, hs.disjoint⟩
  bound y hy := by
    rcases hy with hy | hy
    · exact hs.bound y (Or.inl hy)
    · rcases List.mem_cons.mp hy with rfl | hy
      · exact hbound
      · exact hs.bound y (Or.inr hy)
  brk_pos := hs.brk_pos

/-- A part of a free block is apart from the blocks in use. -/
theorem apart_within (hs : Sound h free used) (hy : y ∈ free) (hlo : y.1 ≤ b.1)
    (hhi : b.1 + b.2 ≤ y.1 + y.2) : ∀ z ∈ used, Apart b z := by
  intro z hz
  have h₁ := hs.apart z hz y hy
  unfold Apart at *
  omega

/-- A block is taken whole. -/
theorem take_whole (hs : Sound h (C ++ x :: y :: D) used) {n : Nat} (hn : 0 < n) (hy : y.2 = n) :
    ∃ h', h.take n x.1 y.1 = (some (y.1 + 1), h') ∧ Sound h' (C ++ x :: D) (y :: used) ∧
      h'.brk = h.brk ∧ Kept h h' used := by
  obtain ⟨-, hxs, hCx⟩ := List.pairwise_append.mp hs.sorted
  have hxy := List.pairwise_cons.mp hxs
  have hyD := List.pairwise_cons.mp hxy.2
  have hrest := (chain_append.mp hs.chain).2
  have hxmem : h.mem x.1 = ⟨y.1, x.2⟩ := hrest.1
  have hymem : h.mem y.1 = ⟨first D base, y.2⟩ := hrest.2.1
  have hxlt := (hxy.1 y List.mem_cons_self).lt
  have hsub : ∀ z ∈ x :: D, z ∈ C ++ x :: y :: D := by
    intro z hz
    rcases List.mem_cons.mp hz with rfl | hz <;> simp [*]
  have hkept : Kept h { h with mem := Function.update h.mem x.1 ⟨first D base, x.2⟩, freep := some x.1 }
      used := fun z hz u hu hu' =>
    kept_update (hs.header_out (by simp) (hs.header z hz).2.2 (hs.apart z hz x (by simp))) hu hu'
  have hfree : Sound { h with mem := Function.update h.mem x.1 ⟨first D base, x.2⟩, freep := some x.1 }
      (C ++ x :: D) used := by
    refine hs.replace rfl (fun _ => rfl) rfl rfl ⟨Function.update_self .., ?_⟩ ?_ ?_ ?_ ?_ ?_ ?_
    · refine hrest.2.2.congr fun z hz => Function.update_of_ne ?_ ..
      have := (hyD.1 z hz).lt
      omega
    · exact fun c hc => Function.update_of_ne (hCx c hc x List.mem_cons_self).lt.ne ..
    · exact fun z hz => hkept z hz z.1 (Nat.le_refl _) (by have := (hs.header z hz).2.1; omega)
    · exact List.pairwise_cons.mpr ⟨fun z hz => hxy.1 z (List.mem_cons_of_mem _ hz), hyD.2⟩
    · exact fun z hz => hs.pos z (hsub z hz)
    · exact fun z hz w hw => hs.apart z hz w (hsub w hw)
    · exact fun z hz => hs.bound z (Or.inl (hsub z hz))
  have htake : h.take n x.1 y.1 = (some (y.1 + 1),
      { h with mem := Function.update h.mem x.1 ⟨first D base, x.2⟩, freep := some x.1 }) := by
    rw [Heap.take, hymem, hxmem, if_pos hy]
  refine ⟨_, htake, ?_, rfl, hkept⟩
  refine hfree.add ?_ (by omega) (Nat.lt_of_le_of_lt (Nat.zero_le _) hxlt) ?_ ?_ ?_
  · show (Function.update h.mem x.1 _ y.1).size = y.2
    rw [Function.update_of_ne hxlt.ne', hymem]
  · intro w hw
    refine Or.symm ?_
    rcases List.mem_append.mp hw with hw | hw
    · exact Or.inl (Nat.le_of_lt (hCx w hw y (by simp)))
    · rcases List.mem_cons.mp hw with rfl | hw
      · exact Or.inl (Nat.le_of_lt (hxy.1 y List.mem_cons_self))
      · exact Or.inr (Nat.le_of_lt (hyD.1 w hw))
  · exact hs.apart_within (y := y) (by simp) (Nat.le_refl _) (Nat.le_refl _)
  · exact hs.bound y (Or.inl (by simp))

/-- A block shrinks by `n` units at its end. -/
theorem shrink (hs : Sound h (C ++ x :: y :: D) used) {n : Nat} (hn : 0 < n) (hy : n < y.2)
    {mem : Nat → Header} (hsame : ∀ u, u < y.1 ∨ y.1 + y.2 ≤ u → mem u = h.mem u)
    (hmem : mem y.1 = ⟨first D base, y.2 - n⟩) :
    Kept h { h with mem := mem, freep := some x.1 } used ∧
      Sound { h with mem := mem, freep := some x.1 } (C ++ x :: (y.1, y.2 - n) :: D) used := by
  obtain ⟨-, hxs, hCx⟩ := List.pairwise_append.mp hs.sorted
  have hxy := List.pairwise_cons.mp hxs
  have hyD := List.pairwise_cons.mp hxy.2
  have hrest := (chain_append.mp hs.chain).2
  have hxlt := (hxy.1 y List.mem_cons_self).lt
  have hkept : Kept h { h with mem := mem, freep := some x.1 } used := by
    intro z hz u hu hu'
    have hzy := hs.apart z hz y (by simp)
    unfold Apart at hzy
    exact hsame u (by omega)
  refine ⟨hkept, hs.replace rfl (fun _ => rfl) rfl rfl ⟨?_, hmem, ?_⟩ ?_ ?_ ?_ ?_ ?_ ?_⟩
  · exact (hsame x.1 (Or.inl hxlt)).trans hrest.1
  · exact hrest.2.2.congr fun z hz => hsame z.1 (Or.inr (Nat.le_of_lt (hyD.1 z hz)))
  · exact fun c hc => hsame c.1 (Or.inl ((hCx c hc x List.mem_cons_self).lt.trans hxlt))
  · exact fun z hz => hkept z hz z.1 (Nat.le_refl _) (by have := (hs.header z hz).2.1; omega)
  · refine List.pairwise_cons.mpr ⟨fun z hz => ?_, List.pairwise_cons.mpr ⟨fun z hz => ?_, hyD.2⟩⟩
    · rcases List.mem_cons.mp hz with rfl | hz
      · exact hxy.1 y List.mem_cons_self
      · exact hxy.1 z (List.mem_cons_of_mem _ hz)
    · have := hyD.1 z hz
      unfold Below at this ⊢
      simp only
      omega
  · intro z hz
    rcases List.mem_cons.mp hz with rfl | hz
    · exact hs.pos z (by simp)
    · rcases List.mem_cons.mp hz with rfl | hz
      · exact fun _ => Nat.sub_pos_of_lt hy
      · exact hs.pos z (by simp [hz])
  · intro z hz w hw
    rcases List.mem_cons.mp hw with rfl | hw
    · exact hs.apart z hz w (by simp)
    · rcases List.mem_cons.mp hw with rfl | hw
      · have := hs.apart z hz y (by simp)
        unfold Apart at this ⊢
        simp only
        omega
      · exact hs.apart z hz w (by simp [hw])
  · intro z hz
    rcases List.mem_cons.mp hz with rfl | hz
    · exact hs.bound z (Or.inl (by simp))
    · rcases List.mem_cons.mp hz with rfl | hz
      · have := hs.bound y (Or.inl (by simp))
        simp only
        omega
      · exact hs.bound z (Or.inl (by simp [hz]))

/-- The end of a block is taken. -/
theorem take_end (hs : Sound h (C ++ x :: y :: D) used) {n : Nat} (hn : 0 < n) (hy : n < y.2) :
    ∃ h', h.take n x.1 y.1 = (some (y.1 + (y.2 - n) + 1), h') ∧
      Sound h' (C ++ x :: (y.1, y.2 - n) :: D) ((y.1 + (y.2 - n), n) :: used) ∧
      h'.brk = h.brk ∧ Kept h h' used := by
  obtain ⟨-, hxs, hCx⟩ := List.pairwise_append.mp hs.sorted
  have hxy := List.pairwise_cons.mp hxs
  have hyD := List.pairwise_cons.mp hxy.2
  have hymem : h.mem y.1 = ⟨first D base, y.2⟩ := (chain_append.mp hs.chain).2.2.1
  have hqy : y.1 + (y.2 - n) ≠ y.1 := by omega
  have htake : h.take n x.1 y.1 = (some (y.1 + (y.2 - n) + 1),
      { h with
        mem := Function.update (Function.update h.mem y.1 ⟨first D base, y.2 - n⟩)
          (y.1 + (y.2 - n)) { h.mem (y.1 + (y.2 - n)) with size := n }
        freep := some x.1 }) := by
    rw [Heap.take, hymem, if_neg hy.ne']
    simp only
    rw [Function.update_of_ne hqy]
  generalize hmem : Function.update (Function.update h.mem y.1 ⟨first D base, y.2 - n⟩)
    (y.1 + (y.2 - n)) { h.mem (y.1 + (y.2 - n)) with size := n } = mem at htake
  have hsame : ∀ u, u < y.1 ∨ y.1 + y.2 ≤ u → mem u = h.mem u := by
    intro u hu
    rw [← hmem, Function.update_of_ne (by omega), Function.update_of_ne (by omega)]
  have hmemy : mem y.1 = ⟨first D base, y.2 - n⟩ := by
    rw [← hmem, Function.update_of_ne (Ne.symm hqy), Function.update_self]
  have hmemq : (mem (y.1 + (y.2 - n))).size = n := by rw [← hmem, Function.update_self]
  obtain ⟨hkept, hfree⟩ := hs.shrink hn hy hsame hmemy
  have hybound := hs.bound y (Or.inl (by simp))
  refine ⟨_, htake, ?_, rfl, hkept⟩
  refine hfree.add hmemq hn (Nat.add_pos_right _ (Nat.sub_pos_of_lt hy)) ?_ ?_ (by simp only; omega)
  · intro w hw
    refine Or.symm ?_
    rcases List.mem_append.mp hw with hw | hw
    · have := hCx w hw y (by simp)
      unfold Below at this
      exact Or.inl (by simp only; omega)
    · rcases List.mem_cons.mp hw with rfl | hw
      · have := hxy.1 y List.mem_cons_self
        unfold Below at this
        exact Or.inl (by simp only; omega)
      · rcases List.mem_cons.mp hw with rfl | hw
        · exact Or.inl (Nat.le_refl _)
        · have := hyD.1 w hw
          unfold Below at this
          exact Or.inr (by simp only; omega)
  · exact hs.apart_within (y := y) (by simp) (by simp) (by simp only; omega)

/-- A block that is large enough is taken, or the end of it. -/
theorem take (hs : Sound h (C ++ x :: y :: D) used) {n : Nat} (hn : 0 < n) (hy : n ≤ y.2) :
    ∃ h' free' b, h.take n x.1 y.1 = (some (b.1 + 1), h') ∧ Sound h' free' (b :: used) ∧ b.2 = n ∧
      units free' + n = units (C ++ x :: y :: D) ∧ h'.brk = h.brk ∧ Kept h h' used := by
  rcases hy.lt_or_eq with hlt | heq
  · obtain ⟨h', hrun, hs', hbrk, hkept⟩ := hs.take_end hn hlt
    refine ⟨h', _, _, hrun, hs', rfl, ?_, hbrk, hkept⟩
    simp only [units_append, units_cons]
    omega
  · obtain ⟨h', hrun, hs', hbrk, hkept⟩ := hs.take_whole hn heq.symm
    refine ⟨h', _, y, hrun, hs', heq.symm, ?_, hbrk, hkept⟩
    simp only [units_append, units_cons]
    omega

/-! ## The search -/

variable {n m : Nat} {g : Bool} {R S : List Block} {f : Nat}

/-- The loop of `malloc` goes on to the next block. -/
theorem mallocLoop_next {prevp p : Nat} (hsize : (h.mem p).size < n) (hp : h.freep ≠ some p) :
    mallocLoop n g (m + 1) h prevp p = mallocLoop n g m h p (h.mem p).ptr := by
  rw [mallocLoop, if_neg (Nat.not_le_of_lt hsize), if_neg hp]

/-- It passes the blocks that are too small. -/
theorem mallocLoop_skip {z q : Nat} (hchain : Chain h.mem S z)
    (hS : ∀ x ∈ S, x.2 < n ∧ h.freep ≠ some x.1) :
    ∃ q', mallocLoop n g (m + S.length) h q (first S z) = mallocLoop n g m h q' z := by
  induction S generalizing q with
  | nil => exact ⟨q, rfl⟩
  | cons x S ih =>
      obtain ⟨hmem, hrest⟩ := hchain
      obtain ⟨hsize, hfreep⟩ := hS x List.mem_cons_self
      obtain ⟨q', hq'⟩ := ih (q := x.1) hrest fun y hy => hS y (List.mem_cons_of_mem _ hy)
      refine ⟨q', ?_⟩
      rw [List.length_cons, ← Nat.add_assoc, first, mallocLoop_next (by rw [hmem]; exact hsize) hfreep, hmem]
      exact hq'

/-- It takes the first block that is large enough. -/
theorem mallocLoop_found (hchain : Chain h.mem (x :: (S ++ y :: R)) base)
    (hS : ∀ z ∈ S, z.2 < n ∧ h.freep ≠ some z.1) (hy : n ≤ y.2) (hm : S.length < m) :
    ∃ C' x', C ++ x :: (S ++ y :: R) = C' ++ x' :: y :: R ∧
      mallocLoop n g m h x.1 (first (S ++ y :: R) base) = some (h.take n x'.1 y.1) := by
  induction S generalizing C x m with
  | nil =>
      refine ⟨C, x, rfl, ?_⟩
      obtain ⟨m, rfl⟩ := Nat.exists_eq_succ_of_ne_zero (Nat.ne_of_gt hm)
      have hsize : n ≤ (h.mem y.1).size := by rw [hchain.2.1]; exact hy
      exact if_pos hsize
  | cons z S ih =>
      obtain ⟨hsize, hfreep⟩ := hS z List.mem_cons_self
      cases m with
      | zero => cases hm
      | succ m =>
          have hmem : h.mem z.1 = ⟨first (S ++ y :: R) base, z.2⟩ := hchain.2.1
          obtain ⟨C', x', heq, hloop⟩ := ih (C := C ++ [x]) (x := z) (m := m) hchain.2
            (fun w hw => hS w (List.mem_cons_of_mem _ hw)) (Nat.lt_of_succ_lt_succ hm)
          refine ⟨C', x', by rw [← heq]; simp, ?_⟩
          show mallocLoop n g (m + 1) h x.1 z.1 = _
          rw [mallocLoop_next (by rw [hmem]; exact hsize) hfreep, hmem]
          exact hloop

/-- What happens when no block is large enough. -/
def grow (h : Heap) (n : Nat) (g : Bool) (m : Nat) : Option (Option Nat × Heap) :=
  match h.morecore n g with
  | none => none
  | some (none, h') => some (none, h')
  | some (some p', h') => mallocLoop n g m h' p' (h'.mem p').ptr

theorem mallocLoop_grow {prevp : Nat} (hsize : (h.mem f).size < n) (hf : h.freep = some f) :
    mallocLoop n g (m + 1) h prevp f = grow h n g m := by
  rw [mallocLoop, if_neg (Nat.not_le_of_lt hsize), if_pos hf]
  rfl

theorem exists_fit (l : List Block) (n : Nat) :
    (∀ z ∈ l, z.2 < n) ∨ ∃ S y R, l = S ++ y :: R ∧ n ≤ y.2 ∧ ∀ z ∈ S, z.2 < n := by
  cases hfind : l.find? fun z => decide (n ≤ z.2) with
  | none =>
      refine Or.inl fun z hz => ?_
      simpa using List.find?_eq_none.mp hfind z hz
  | some y =>
      obtain ⟨hy, S, R, heq, hS⟩ := List.find?_eq_some_iff_append.mp hfind
      exact Or.inr ⟨S, y, R, heq, by simpa using hy, fun z hz => by simpa using hS z hz⟩

/-- Once around the free list. -/
theorem scan (hs : Sound h free used) (hn : 0 < n) (hf : h.freep = some f) (hm : free.length < m) :
    (∃ C x y D, free = C ++ x :: y :: D ∧ n ≤ y.2 ∧
      mallocLoop n g m h f (h.mem f).ptr = some (h.take n x.1 y.1)) ∨
    (∀ y ∈ free, y.2 < n) ∧ ∃ m', m = m' + free.length ∧
      mallocLoop n g m h f (h.mem f).ptr = grow h n g m' := by
  obtain ⟨b, hb, hfb⟩ := hs.freep
  obtain rfl : f = b.1 := Option.some.inj (hf.symm.trans hfb)
  obtain ⟨A, B, rfl⟩ := List.append_of_mem hb
  have hnodup := hs.sorted.imp fun hxy => hxy.lt.ne
  obtain ⟨-, hbB, hAb⟩ := List.pairwise_append.mp hnodup
  have hB : ∀ z ∈ B, h.freep ≠ some z.1 := fun z hz hc =>
    (List.pairwise_cons.mp hbB).1 z hz (Option.some.inj (hf.symm.trans hc))
  have hA : ∀ z ∈ A, h.freep ≠ some z.1 := fun z hz hc =>
    hAb z hz b List.mem_cons_self (Option.some.inj (hf.symm.trans hc)).symm
  have hrest := (chain_append.mp hs.chain).2
  have hbmem : h.mem b.1 = ⟨first B base, b.2⟩ := hrest.1
  rw [List.length_append, List.length_cons] at hm ⊢
  rw [hbmem]
  rcases exists_fit B n with hBsmall | ⟨S, y, R, rfl, hy, hS⟩
  · -- nothing up to the end of the list
    have hskip : ∀ k, ∃ q, mallocLoop n g (k + B.length) h b.1 (first B base) = mallocLoop n g k h q base :=
      fun k => mallocLoop_skip hrest.2 fun z hz => ⟨hBsmall z hz, hB z hz⟩
    cases A with
    | nil =>
        have hbase : b = (base, 0) := Option.some.inj hs.head
        subst hbase
        obtain ⟨q, hq⟩ := hskip (m - B.length)
        rw [Nat.sub_add_cancel (by omega)] at hq
        refine Or.inr ⟨?_, m - B.length - 1, by simp only [List.length_nil]; omega, ?_⟩
        · intro z hz
          rcases List.mem_cons.mp hz with rfl | hz
          · exact hn
          · exact hBsmall z hz
        · rw [hq, show m - B.length = m - B.length - 1 + 1 by omega]
          exact mallocLoop_grow (by rw [hbmem]; exact hn) hf
    | cons a A =>
        have hbase : a = (base, 0) := Option.some.inj hs.head
        subst hbase
        rw [List.length_cons] at hm ⊢
        have hchain : Chain h.mem ((base, 0) :: (A ++ b :: B)) base := hs.chain
        have hmem : h.mem base = ⟨first (A ++ b :: B) base, 0⟩ := hchain.1
        have hstart : ∀ k q, mallocLoop n g (k + 1) h q base =
            mallocLoop n g k h base (first (A ++ b :: B) base) := by
          intro k q
          rw [mallocLoop_next (by rw [hmem]; exact hn) (hA (base, 0) List.mem_cons_self), hmem]
        obtain ⟨q, hq⟩ := hskip (m - B.length)
        rw [Nat.sub_add_cancel (by omega), show m - B.length = m - B.length - 1 + 1 by omega, hstart] at hq
        rw [hq]
        have hA' : ∀ z ∈ A, h.freep ≠ some z.1 := fun z hz => hA z (List.mem_cons_of_mem _ hz)
        rcases exists_fit A n with hAsmall | ⟨S, y, R, rfl, hy, hS⟩
        · by_cases hbn : n ≤ b.2
          · obtain ⟨C', x', heq, hloop⟩ := mallocLoop_found (g := g) (C := []) hchain
              (fun z hz => ⟨hAsmall z hz, hA' z hz⟩) hbn (m := m - B.length - 1) (by omega)
            exact Or.inl ⟨C', x', b, B, heq, hbn, hloop⟩
          · have hchainA : Chain h.mem A b.1 := (chain_append.mp hchain.2).1
            obtain ⟨q', hq'⟩ := mallocLoop_skip (g := g) (m := m - B.length - 1 - A.length) (q := base) hchainA
              fun z hz => ⟨hAsmall z hz, hA' z hz⟩
            rw [Nat.sub_add_cancel (by omega)] at hq'
            refine Or.inr ⟨?_, m - B.length - 1 - A.length - 1, by omega, ?_⟩
            · intro z hz
              rcases List.mem_append.mp hz with hz | hz
              · rcases List.mem_cons.mp hz with rfl | hz
                · exact hn
                · exact hAsmall z hz
              · rcases List.mem_cons.mp hz with rfl | hz
                · omega
                · exact hBsmall z hz
            · rw [first_append]
              show mallocLoop n g _ h base (first A b.1) = _
              rw [hq', show m - B.length - 1 - A.length = m - B.length - 1 - A.length - 1 + 1 by omega]
              exact mallocLoop_grow (by rw [hbmem]; exact Nat.lt_of_not_le hbn) hf
        · rw [List.append_assoc] at hchain
          obtain ⟨C', x', heq, hloop⟩ := mallocLoop_found (g := g) (C := []) hchain
            (fun z hz => ⟨hS z hz, hA' z (List.mem_append_left _ hz)⟩) hy (m := m - B.length - 1)
            (by rw [List.length_append, List.length_cons] at hm; omega)
          refine Or.inl ⟨C', x', y, R ++ b :: B, ?_, hy, ?_⟩
          · rw [List.cons_append, List.append_assoc]
            exact heq
          · rw [List.append_assoc]
            exact hloop
  · obtain ⟨C', x', heq, hloop⟩ := mallocLoop_found (g := g) (C := A) hrest
      (fun z hz => ⟨hS z hz, hB z (List.mem_append_left _ hz)⟩) hy (m := m)
      (by rw [List.length_append, List.length_cons] at hm; omega)
    exact Or.inl ⟨C', x', y, R, heq, hy, hloop⟩

/-- `malloc` returns, and without a block only if `sbrk` failed. -/
theorem malloc_loop (hs : Sound h free used) (hn : 0 < n) (hf : h.freep = some f)
    (hm : 2 * h.brk + 8 ≤ m) :
    ∃ r h', mallocLoop n g m h f (h.mem f).ptr = some (r, h') ∧
      (r = none ∧ g = false ∧ h' = h ∨
        ∃ free' b, r = some (b.1 + 1) ∧ Sound h' free' (b :: used) ∧ b.2 = n ∧
          units free' + n + h.brk = units free + h'.brk ∧ h.brk ≤ h'.brk ∧ Kept h h' used) := by
  have hlen := hs.length_le
  have hbrk := hs.brk_pos
  rcases hs.scan (g := g) hn hf (m := m) (by omega) with
    ⟨C, x, y, D, rfl, hy, hloop⟩ | ⟨hsmall, m', hm', hloop⟩
  · obtain ⟨h', free', b, htake, hs', hb, hunits, hbrk', hkept⟩ := hs.take hn hy
    rw [hloop, htake]
    exact ⟨_, _, rfl, Or.inr ⟨free', b, rfl, hs', hb, by omega, by omega, hkept⟩⟩
  · rw [hloop]
    cases g with
    | false => exact ⟨none, h, rfl, Or.inl ⟨rfl, rfl, rfl⟩⟩
    | true =>
        obtain ⟨h₁, free₁, f₁, hmore, hf₁, hs₁, hunits₁, hlen₁, hbrk₁, hkept₁, z, hz, hzn⟩ := hs.morecore n
        have hgrow : grow h n true m' = mallocLoop n true m' h₁ f₁ (h₁.mem f₁).ptr := by
          unfold grow
          rw [hmore]
        rw [hgrow]
        rcases hs₁.scan (g := true) hn hf₁ (m := m') (by omega) with
          ⟨C, x, y, D, rfl, hy, hloop₁⟩ | ⟨hsmall₁, _⟩
        · obtain ⟨h', free', b, htake, hs', hb, hunits, hbrk', hkept⟩ := hs₁.take hn hy
          rw [hloop₁, htake]
          refine ⟨_, _, rfl, Or.inr ⟨free', b, rfl, hs', hb, by omega, by omega, ?_⟩⟩
          intro w hw u hu hu'
          exact (hkept w hw u hu hu').trans (hkept₁ w hw u hu hu')
        · -- the block that `morecore` freed is large enough
          have := hsmall₁ z hz
          omega

end Sound

/-! ## Programs that allocate -/

/-- The lists are sound, or there was no call yet. -/
def Ready (h : Heap) (free used : List Block) : Prop :=
  Sound h free used ∨ base < h.brk ∧ h.freep = none ∧ free = [] ∧ used = []

theorem nunits_eq {nbytes : UInt32} (hn : nbytes.toNat + 16 ≤ 2 ^ 31) :
    nunits nbytes = (nbytes.toNat + 7) / 8 + 1 := by
  have h₁ : (nbytes + 8 - 1).toNat = nbytes.toNat + 7 := by
    rw [UInt32.toNat_sub, UInt32.toNat_add]
    simp
    omega
  have h₂ : ((nbytes + 8 - 1) / 8).toNat = (nbytes.toNat + 7) / 8 := by
    rw [UInt32.toNat_div, h₁]
    rfl
  rw [nunits, UInt32.toNat_add, h₂]
  simp
  omega

/-- `malloc` left the heap `h'`: the blocks in use are those of `used`, as they were, and the memory of the
free list has changed by what was taken (`n`) and what `sbrk` gave. -/
structure Malloced (h : Heap) (free used : List Block) (n : Nat) (h' : Heap) (free' used' : List Block) :
    Prop where
  sound : Sound h' free' used'
  units_eq : units free' + n + h.brk = units free + h'.brk
  brk_le : h.brk ≤ h'.brk
  kept : Kept h h' used

theorem Sound.init (hbrk : base < h.brk) :
    Sound { h with mem := Function.update h.mem base ⟨base, 0⟩, freep := some base } [(base, 0)] [] where
  chain := by
    refine ⟨?_, trivial⟩
    show Function.update h.mem base ⟨base, 0⟩ base = _
    rw [Function.update_self]
    rfl
  head := rfl
  freep := ⟨(base, 0), by simp, rfl⟩
  sorted := List.pairwise_singleton _ _
  pos := by simp
  header := by simp
  apart := by simp
  disjoint := .nil
  bound := by simp
  brk_pos := hbrk

/-- `malloc` returns a block of the size that was asked for, or nothing if `sbrk` failed. -/
theorem Ready.malloc (hr : Ready h free used) {nbytes : UInt32} (hn : nbytes.toNat + 16 ≤ 2 ^ 31) (ok : Bool) :
    ∃ r h' free', h.malloc nbytes ok = some (r, h') ∧
      (r = none ∧ ok = false ∧ h'.brk = h.brk ∧ Malloced h free used 0 h' free' used ∨
        ∃ b, r = some (b.1 + 1) ∧ nbytes.toNat ≤ 8 * (b.2 - 1) ∧
          Malloced h free used b.2 h' free' (b :: used)) := by
  have hpos : 0 < nunits nbytes := by
    rw [nunits_eq hn]
    omega
  have hsize : nbytes.toNat ≤ 8 * (nunits nbytes - 1) := by
    rw [nunits_eq hn]
    omega
  have hmain : ∀ {h₁ : Heap} {free₁ : List Block} {f : Nat}, Sound h₁ free₁ used → h₁.freep = some f →
      units free₁ = units free → h₁.brk = h.brk → Kept h h₁ used → ∃ r h' free',
        mallocLoop (nunits nbytes) ok (2 * h.brk + 8) h₁ f (h₁.mem f).ptr = some (r, h') ∧
        (r = none ∧ ok = false ∧ h'.brk = h.brk ∧ Malloced h free used 0 h' free' used ∨
          ∃ b, r = some (b.1 + 1) ∧ nbytes.toNat ≤ 8 * (b.2 - 1) ∧
            Malloced h free used b.2 h' free' (b :: used)) := by
    intro h₁ free₁ f hs hf hunits hbrk hkept
    obtain ⟨r, h', hloop, hcases⟩ := hs.malloc_loop (g := ok) hpos hf (m := 2 * h.brk + 8) (by rw [hbrk])
    rcases hcases with ⟨rfl, hok, rfl⟩ | ⟨free', b, rfl, hs', hb, hunits', hbrk', hkept'⟩
    · exact ⟨_, _, free₁, hloop, Or.inl ⟨rfl, hok, hbrk, hs, by omega, by omega, hkept⟩⟩
    · refine ⟨_, _, free', hloop, Or.inr ⟨b, rfl, by rw [hb]; exact hsize, hs', by omega, by omega, ?_⟩⟩
      intro z hz u hu hu'
      exact (hkept' z hz u hu hu').trans (hkept z hz u hu hu')
  unfold Heap.malloc
  rcases hr with hs | ⟨hbrk, hnone, rfl, rfl⟩
  · obtain ⟨f, _, hf⟩ := hs.freep
    rw [hf]
    exact hmain hs hf rfl rfl fun _ _ _ _ _ => rfl
  · rw [hnone]
    exact hmain (Sound.init hbrk) rfl rfl rfl fun z hz => by cases hz

/-- `free` returns, and the memory of the block is in the free list. -/
theorem Sound.free_used (hs : Sound h free used) (hb : b ∈ used) :
    ∃ h' free', h.free (b.1 + 1) = some h' ∧
      Sound h' free' (used.filter fun z => z.1 ≠ b.1) ∧ units free' = b.2 + units free ∧ h'.brk = h.brk ∧
      Kept h h' (used.filter fun z => z.1 ≠ b.1) := by
  obtain ⟨hsize, hpos, hbase⟩ := hs.header b hb
  have hsub := hs.sublist (List.filter_sublist (p := fun z : Block => z.1 ≠ b.1) (l := used))
  have happart : ∀ z ∈ used.filter fun z => z.1 ≠ b.1, Apart b z := by
    intro z hz
    obtain ⟨hz, hne⟩ := List.mem_filter.mp hz
    have hne : z.1 ≠ b.1 := by simpa using hne
    exact hs.disjoint.forall hb hz fun hc => hne (hc ▸ rfl)
  obtain ⟨h', free', hfree, hs', hunits, _, hbrk, hkept, _⟩ := hsub.release hsize hpos hbase
    (fun y hy => hs.apart b hb y hy) happart (hs.bound b (Or.inr hb))
  exact ⟨h', free', hfree, hs', hunits, hbrk, hkept⟩

end Heap

/-- A program with its allocator: the blocks it has been given, and, for the specification, how much
memory `malloc` has got from `sbrk`. -/
structure HeapRun where
  heap : Heap
  used : List Block
  got : Nat

inductive HeapEvent where
  | malloc (nbytes : UInt32) (ok : Bool)
  | free (ap : Nat)
  /-- The program writes to a block. -/
  | write (u : Nat) (x : Header)
  /-- It calls `sbrk` itself. -/
  | sbrk (k : Nat)

namespace HeapRun

def step (s : HeapRun) : HeapEvent → HeapRun
  | .malloc nbytes ok =>
      match s.heap.malloc nbytes ok with
      | none => s
      | some (none, h) => { s with heap := h }
      | some (some ap, h) =>
          { heap := h, used := (ap - 1, (h.mem (ap - 1)).size) :: s.used, got := s.got + (h.brk - s.heap.brk) }
  | .free ap =>
      match s.heap.free ap with
      | none => s
      | some h => { s with heap := h, used := s.used.filter fun z => z.1 ≠ ap - 1 }
  | .write u x => { s with heap := { s.heap with mem := Function.update s.heap.mem u x } }
  | .sbrk k => { s with heap := { s.heap with brk := s.heap.brk + k } }

/-- The program asks for less than 2 GiB at a time, frees what it was given and has not freed, and writes to
its blocks only. -/
def Admits (s : HeapRun) : HeapEvent → Prop
  | .malloc nbytes _ => nbytes.toNat + 16 ≤ 2 ^ 31
  | .free ap => ∃ b ∈ s.used, ap = b.1 + 1
  | .write u _ => ∃ b ∈ s.used, b.1 < u ∧ u < b.1 + b.2
  | .sbrk _ => True

instance (s : HeapRun) : (e : HeapEvent) → Decidable (s.Admits e)
  | .malloc nbytes _ => inferInstanceAs (Decidable (nbytes.toNat + 16 ≤ 2 ^ 31))
  | .free ap => inferInstanceAs (Decidable (∃ b ∈ s.used, ap = b.1 + 1))
  | .write u _ => inferInstanceAs (Decidable (∃ b ∈ s.used, b.1 < u ∧ u < b.1 + b.2))
  | .sbrk _ => inferInstanceAs (Decidable True)

def start (mem : Nat → Header) (brk : Nat) : HeapRun := ⟨⟨mem, none, brk⟩, [], 0⟩

/-- The free list is sound, and no memory is lost. -/
structure Managed (s : HeapRun) (free : List Block) : Prop where
  ready : s.heap.Ready free s.used
  units_eq : units free + units s.used = s.got

section Managed

variable {s : HeapRun} {free : List Block} {e : HeapEvent} {es : List HeapEvent}

/-- The memory of a list without one of its blocks. -/
theorem units_filter {l : List Block} {b : Block} (hl : l.Pairwise fun x y => x.1 ≠ y.1) (hb : b ∈ l) :
    units l = b.2 + units (l.filter fun z => z.1 ≠ b.1) := by
  induction l with
  | nil => cases hb
  | cons x l ih =>
      obtain ⟨hx, hrest⟩ := List.pairwise_cons.mp hl
      rcases List.mem_cons.mp hb with rfl | hb
      · have hsame : (l.filter fun z => z.1 ≠ b.1) = l :=
          List.filter_eq_self.mpr fun z hz => by simpa using (hx z hz).symm
        rw [List.filter_cons_of_neg (by simp), hsame, units_cons]
      · rw [List.filter_cons_of_pos (by simpa using hx b hb), units_cons, units_cons, ih hrest hb]
        omega

/-- No other block has a header among the contents of a block. -/
theorem header_ne (hs : s.heap.Sound free s.used) {b z : Block} {u : Nat} (hb : b ∈ s.used) (hu : b.1 < u)
    (hu' : u < b.1 + b.2) (hz : z ∈ free ∨ z ∈ s.used) : z.1 ≠ u := by
  have hbs := hs.header b hb
  rcases hz with hz | hz
  · have := hs.header_out hz hbs.2.2 (hs.apart b hb z hz)
    omega
  · by_cases hbz : b = z
    · subst hbz
      omega
    · have hapart := hs.disjoint.forall hb hz hbz
      have := hs.header z hz
      unfold Apart at hapart
      omega

/-- One event: the contents of the blocks that stay in use change only where the program writes. -/
theorem Managed.step (hm : Managed s free) (hok : s.Admits e) :
    (∃ free', Managed (s.step e) free') ∧
      ∀ z ∈ s.used, z ∈ (s.step e).used → ∀ u, z.1 < u → u < z.1 + z.2 → (∀ x, e ≠ .write u x) →
        (s.step e).heap.mem u = s.heap.mem u := by
  cases e with
  | malloc nbytes ok =>
      obtain ⟨r, h', free', hmalloc, hcases⟩ := hm.ready.malloc hok ok
      have hunits := hm.units_eq
      simp only [HeapRun.step, hmalloc]
      rcases hcases with ⟨rfl, -, hbrk, hd⟩ | ⟨b, rfl, -, hd⟩
      · have hunits' := hd.units_eq
        refine ⟨⟨free', Or.inl hd.sound, ?_⟩, fun z hz _ u hu hu' _ => hd.kept z hz u hu.le hu'⟩
        simp only
        omega
      · have hunits' := hd.units_eq
        have hbrk := hd.brk_le
        have hb : (b.1, (h'.mem b.1).size) = b := by
          rw [(hd.sound.header b List.mem_cons_self).1]
        simp only [Nat.add_sub_cancel, hb]
        refine ⟨⟨free', Or.inl hd.sound, ?_⟩, fun z hz _ u hu hu' _ => hd.kept z hz u hu.le hu'⟩
        simp only [units_cons]
        omega
  | free ap =>
      obtain ⟨b, hb, rfl⟩ := hok
      rcases hm.ready with hs | ⟨_, _, _, hnone⟩
      · obtain ⟨h', free', hfree, hs', hunits', -, hkept⟩ := hs.free_used hb
        have hunits := hm.units_eq
        have hnodup : s.used.Pairwise fun x y => x.1 ≠ y.1 := by
          refine hs.disjoint.imp_of_mem fun hx hy hxy => ?_
          have := hs.header _ hx
          have := hs.header _ hy
          unfold Apart at hxy
          omega
        have hfilter := units_filter hnodup hb
        simp only [HeapRun.step, hfree, Nat.add_sub_cancel]
        refine ⟨⟨free', Or.inl hs', by simp only; omega⟩, fun z _ hz u hu hu' _ => hkept z hz u hu.le hu'⟩
      · rw [hnone] at hb
        cases hb
  | write u x =>
      obtain ⟨b, hb, hu, hu'⟩ := hok
      rcases hm.ready with hs | ⟨_, _, _, hnone⟩
      · have hne := fun z hz => header_ne (z := z) hs hb hu hu' hz
        have hs' : (s.step (.write u x)).heap.Sound free s.used :=
          { chain := hs.chain.congr fun z hz => Function.update_of_ne (hne z (Or.inl hz)) ..
            head := hs.head
            freep := hs.freep
            sorted := hs.sorted
            pos := hs.pos
            header := fun z hz => by
              have hz' : (s.step (.write u x)).heap.mem z.1 = s.heap.mem z.1 :=
                Function.update_of_ne (hne z (Or.inr hz)) ..
              rw [hz']
              exact hs.header z hz
            apart := hs.apart
            disjoint := hs.disjoint
            bound := hs.bound
            brk_pos := hs.brk_pos }
        refine ⟨⟨free, Or.inl hs', hm.units_eq⟩, ?_⟩
        intro z _ _ v _ _ hv
        exact Function.update_of_ne (fun hc : v = u => hv x (by rw [hc])) ..
      · rw [hnone] at hb
        cases hb
  | sbrk k =>
      refine ⟨⟨free, ?_, hm.units_eq⟩, fun _ _ _ _ _ _ _ => rfl⟩
      rcases hm.ready with hs | ⟨hbrk, hnone, hfree, hused⟩
      · exact Or.inl { hs with
          bound := fun z hz => (hs.bound z hz).trans (Nat.le_add_right _ _)
          brk_pos := hs.brk_pos.trans_le (Nat.le_add_right _ _) }
      · exact Or.inr ⟨hbrk.trans_le (Nat.le_add_right _ _), hnone, hfree, hused⟩

end Managed

end HeapRun

end Umalloc
end Xv6
end LfsXv6
