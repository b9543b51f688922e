import LfsXv6.Lib.Program

/-!
# Vm — pages, page tables and the calls that allocate them

Physical memory is a list of free pages and the words of every page; a page is named by its number.
`setupkvm` builds a page directory, `allocuvm` and `copyuvm` put user pages under it, and `deallocuvm`
and `freevm` give them back; `fork`, `exec`, `sbrk` and `wait` are what calls them.  A linear address is
split into its page number and the offset in that page.
-/

namespace LfsXv6
namespace Xv6
namespace Vm

open Lib Prog

/-- `PGSIZE` -/
abbrev pgsize : Nat := 4096

/-- `USERTOP` -/
abbrev usertop : Nat := 0xA0000

/-- `PHYSTOP` -/
abbrev phystop : Nat := 0x1000000

/-- `NPROC` -/
abbrev nproc : Nat := 64

/-- The first page of the kernel's data, and the first page behind the kernel: what the linker makes of
`data` and `end`. -/
structure Link where
  data : Nat
  stop : Nat
  text : 256 < data
  below : data < 4096

instance neZeroWords : NeZero 1024 := ⟨by decide⟩

/-- The words of a page. -/
abbrev Words : Type := Fin 1024 → Nat

/-- Physical memory: the free pages, first the one that `kalloc` takes next, and the words of every
page.  The links of the free list are not among the words. -/
structure Memory where
  freelist : List Nat
  page : Nat → Words

namespace Memory

/-- Give a page new contents. -/
def setPage (m : Memory) (p : Nat) (w : Words) : Memory :=
  { m with page := Function.update m.page p w }

/-- Set a word of a page. -/
def setWord (m : Memory) (p : Nat) (j : Fin 1024) (v : Nat) : Memory :=
  m.setPage p (Function.update (m.page p) j v)

end Memory

/-! ## Entries -/

/-- `PTE_P` -/
abbrev Present (w : Nat) : Prop := w % 2 = 1

/-- `PTE_U` -/
abbrev User (w : Nat) : Prop := w / 4 % 2 = 1

/-- `PTE_ADDR`, as a page number -/
abbrev pteAddr (w : Nat) : Nat := w / 4096

/-- An entry for a page, with the permissions `PTE_W` (2) and `PTE_U` (4). -/
def pte (p perm : Nat) : Nat := 4096 * p + perm + 1

/-- `PDX` of the addresses in a page -/
def pdx (vp : Nat) : Fin 1024 := ⟨vp / 1024 % 1024, Nat.mod_lt _ (by decide)⟩

/-- `PTX` of the addresses in a page -/
def ptx (vp : Nat) : Fin 1024 := ⟨vp % 1024, Nat.mod_lt _ (by decide)⟩

/-- The number of pages that `sz` bytes take: `PGROUNDUP`. -/
def pgroundup (sz : Nat) : Nat := (sz + 4095) / 4096

/-- A difference of `uint`s. -/
def usub (a b : Nat) : Nat := (a + (2 ^ 32 - b % 2 ^ 32)) % 2 ^ 32

/-! ## kalloc.c -/

/-- `kalloc` -/
def kalloc : Prog Memory (Option Nat) := fun m =>
  match m.freelist with
  | [] => .ok (none, m)
  | p :: rest => .ok (some p, { m with freelist := rest })

/-- Store a page. -/
def fill (p : Nat) (w : Words) : Prog Memory Unit := assign fun m => m.setPage p w

/-- Store a word. -/
def put (p : Nat) (j : Fin 1024) (v : Nat) : Prog Memory Unit := assign fun m => m.setWord p j v

/-- `kfree`.  The page is filled with junk. -/
def kfree (k : Link) (p : Nat) : Prog Memory Unit :=
  if p < k.stop ∨ phystop / pgsize ≤ p then halt "kfree"
  else do
    fill p fun _ => 0x01010101
    assign fun m => { m with freelist := p :: m.freelist }

/-! ## vm.c -/

/-- `walkpgdir`: the page table and the index in it. -/
def walkpgdir (d vp : Nat) (create : Bool) : Prog Memory (Option (Nat × Fin 1024)) := do
  let pde ← look fun m => m.page d (pdx vp)
  if Present pde then pure (some (pteAddr pde, ptx vp))
  else if create then
    match ← kalloc with
    | none => pure none
    | some pgtab => do
        fill pgtab fun _ => 0
        put d (pdx vp) (pte pgtab 6)
        pure (some (pgtab, ptx vp))
  else pure none

/-- A turn of the loop of `mappages`; `false` is `-1`. -/
def mapPage (d vp p perm : Nat) : Prog Memory Bool := do
  match ← walkpgdir d vp true with
  | none => pure false
  | some (t, j) => do
      let w ← look fun m => m.page t j
      if Present w then halt "remap"
      else do
        put t j (pte p perm)
        pure true

/-- The loop of `mappages`, with the number of turns behind the first one. -/
def mapLoop (d perm : Nat) : Nat → Nat → Nat → Prog Memory Bool
  | 0, vp, p => mapPage d vp p perm
  | n + 1, vp, p => do
      if ← mapPage d vp p perm then mapLoop d perm n (vp + 1) (p + 1)
      else pure false

/-- `mappages` -/
def mappages (d la size pa perm : Nat) : Prog Memory Bool :=
  mapLoop d perm ((la + size - 1) % 2 ^ 32 / pgsize - la / pgsize) (la / pgsize) (pa / pgsize)

/-- `kmap`: the start, the end and the permissions. -/
def kmap (k : Link) : List (Nat × Nat × Nat) :=
  [(usertop, 0x100000, 2), (0x100000, pgsize * k.data, 0), (pgsize * k.data, phystop, 2),
    (0xFE000000, 0, 2)]

/-- The loop of `setupkvm`. -/
def mapKernel (d : Nat) : List (Nat × Nat × Nat) → Prog Memory Bool
  | [] => pure true
  | (p, e, perm) :: rest => do
      if ← mappages d p (usub e p) p perm then mapKernel d rest
      else pure false

/-- `setupkvm`.  Where `mappages` fails, the directory and its page tables are kept. -/
def setupkvm (k : Link) : Prog Memory (Option Nat) := do
  match ← kalloc with
  | none => pure none
  | some d => do
      fill d fun _ => 0
      if ← mapKernel d (kmap k) then pure (some d)
      else pure none

/-- A turn of the loop of `deallocuvm`. -/
def freePage (k : Link) (d vp : Nat) : Prog Memory Unit := do
  match ← walkpgdir d vp false with
  | none => pure ()
  | some (t, j) => do
      let w ← look fun m => m.page t j
      if Present w then
        if pteAddr w = 0 then halt "kfree"
        else do
          kfree k (pteAddr w)
          put t j 0
      else pure ()

/-- `deallocuvm` -/
def deallocuvm (k : Link) (d oldsz newsz : Nat) : Prog Memory Nat :=
  if newsz ≥ oldsz then pure oldsz
  else do
    each (freePage k d) (List.range' (pgroundup newsz) (pgroundup oldsz - pgroundup newsz))
    pure newsz

/-- The loop of `allocuvm`, with the number of turns left; `false` where it has run out of memory. -/
def allocLoop (k : Link) (d oldsz newsz : Nat) : Nat → Nat → Prog Memory Bool
  | 0, _ => pure true
  | n + 1, vp => do
      match ← kalloc with
      | none => do
          let _ ← deallocuvm k d newsz oldsz
          pure false
      | some p => do
          fill p fun _ => 0
          let _ ← mappages d (pgsize * vp) pgsize (pgsize * p) 6
          allocLoop k d oldsz newsz n (vp + 1)

/-- `allocuvm` -/
def allocuvm (k : Link) (d oldsz newsz : Nat) : Prog Memory Nat :=
  if newsz > usertop then pure 0
  else if newsz < oldsz then pure oldsz
  else do
    if ← allocLoop k d oldsz newsz (pgroundup newsz - pgroundup oldsz) (pgroundup oldsz) then pure newsz
    else pure 0

/-- A turn of the loop of `freevm`. -/
def freeTable (k : Link) (d : Nat) (i : Fin 1024) : Prog Memory Unit := do
  let w ← look fun m => m.page d i
  if Present w then kfree k (pteAddr w)
  else pure ()

/-- `freevm` -/
def freevm (k : Link) (d : Nat) : Prog Memory Unit := do
  let _ ← deallocuvm k d usertop 0
  each (freeTable k d) (List.finRange 1024)
  kfree k d

/-- The loop of `copyuvm`, with the number of turns left; `false` is `goto bad`. -/
def copyLoop (d old : Nat) : Nat → Nat → Prog Memory Bool
  | 0, _ => pure true
  | n + 1, vp => do
      match ← walkpgdir old vp false with
      | none => halt "copyuvm: pte should exist"
      | some (t, j) => do
          let w ← look fun m => m.page t j
          if Present w then
            match ← kalloc with
            | none => pure false
            | some p => do
                let src ← look fun m => m.page (pteAddr w)
                fill p src
                if ← mappages d (pgsize * vp) pgsize (pgsize * p) 6 then copyLoop d old n (vp + 1)
                else pure false
          else halt "copyuvm: page not present"

/-- `copyuvm` -/
def copyuvm (k : Link) (old sz : Nat) : Prog Memory (Option Nat) := do
  match ← setupkvm k with
  | none => pure none
  | some d => do
      if ← copyLoop d old (pgroundup sz) 0 then pure (some d)
      else do
        freevm k d
        pure none

/-- The words of a page in which bytes have been stored from an offset on. -/
def poke (w : Words) (o : Nat) (bytes : List UInt8) : Words := fun j =>
  if o + bytes.length ≤ 4 * j then w j
  else
    (List.range 4).foldr (fun b word =>
      (if o ≤ 4 * j + b ∧ 4 * j + b < o + bytes.length then (bytes.getD (4 * j + b - o) 0).toNat
        else w j / 256 ^ b % 256) + 256 * word) 0

/-- What `readi` returns for an offset and a length, and the bytes it has stored. -/
abbrev Readi : Type := Nat → Nat → Int × List UInt8

/-- The loop of `loaduvm`, with the number of turns left. -/
def loadLoop (d addr : Nat) (readi : Readi) (offset sz : Nat) : Nat → Nat → Prog Memory Bool
  | 0, _ => pure true
  | n + 1, i => do
      match ← walkpgdir d ((addr + i) % 2 ^ 32 / pgsize) false with
      | none => halt "loaduvm: address should exist"
      | some (t, j) => do
          let w ← look fun m => m.page t j
          let old ← look fun m => m.page (pteAddr w)
          let got := readi ((offset + i) % 2 ^ 32) (min (sz - i) pgsize)
          fill (pteAddr w) (poke old 0 got.2)
          if got.1 = min (sz - i) pgsize then loadLoop d addr readi offset sz n (i + pgsize)
          else pure false

/-- `loaduvm` -/
def loaduvm (d addr : Nat) (readi : Readi) (offset sz : Nat) : Prog Memory Bool :=
  if addr % pgsize ≠ 0 then halt "loaduvm: addr must be page aligned"
  else loadLoop d addr readi offset sz (pgroundup sz) 0

/-- `uva2ka`, with 0 for the null pointer.  The addresses of `exec` all have a page table. -/
def uva2ka (d vp : Nat) : Prog Memory Nat := do
  match ← walkpgdir d vp false with
  | none => halt "uva2ka: no page table"
  | some (t, j) => do
      let w ← look fun m => m.page t j
      if ¬ Present w then pure 0
      else if ¬ User w then pure 0
      else pure (pteAddr w)

/-- The loop of `copyout`; every turn takes a byte at least. -/
def copyoutLoop (d : Nat) : Nat → Nat → List UInt8 → Prog Memory Bool
  | 0, _, _ => pure true
  | fuel + 1, va, buf =>
      if buf.length = 0 then pure true
      else do
        let pa ← uva2ka d (va / pgsize)
        if pa = 0 then pure false
        else do
          let n := min (pgsize - va % pgsize) buf.length
          let old ← look fun m => m.page pa
          fill pa (poke old (va % pgsize) (buf.take n))
          copyoutLoop d fuel ((va / pgsize * pgsize + pgsize) % 2 ^ 32) (buf.drop n)

/-- `copyout` -/
def copyout (d va : Nat) (buf : List UInt8) : Prog Memory Bool := copyoutLoop d buf.length va buf

/-! ## exec.c -/

/-- What `exec` reads of a program header. -/
structure Proghdr where
  type : UInt32
  offset : UInt32
  va : UInt32
  filesz : UInt32
  memsz : UInt32
deriving DecidableEq

/-- `ELF_PROG_LOAD` -/
def elfProgLoad : UInt32 := 1

/-- A file that `exec` opens: what `readi` delivers of it; its program headers, where it starts with an
ELF header, each as far as it can be read. -/
structure Binary where
  readi : Readi
  phdrs : Option (List (Option Proghdr))

/-- The loop of `exec` over the program headers; `none` is `goto bad`. -/
def loadSegments (k : Link) (d : Nat) (readi : Readi) : Nat → List (Option Proghdr) →
    Prog Memory (Option Nat)
  | sz, [] => pure (some sz)
  | _, none :: _ => pure none
  | sz, some ph :: rest =>
      if ph.type ≠ elfProgLoad then loadSegments k d readi sz rest
      else if ph.memsz < ph.filesz then pure none
      else do
        let sz' ← allocuvm k d sz (ph.va + ph.memsz).toNat
        if sz' = 0 then pure none
        else if ← loaduvm d ph.va.toNat readi ph.offset.toNat ph.filesz.toNat then
          loadSegments k d readi sz' rest
        else pure none

/-- `MAXARG` -/
def maxarg : Nat := 32

/-- The loop of `exec` over the arguments: the stack pointer and the addresses of the strings. -/
def pushArgs (d : Nat) : Nat → Nat → List (List UInt8) → Prog Memory (Option (Nat × List Nat))
  | sp, _, [] => pure (some (sp, []))
  | sp, argc, arg :: argv =>
      if argc ≥ maxarg then pure none
      else do
        let sp' := usub sp (arg.length + 1) / 4 * 4
        if ← copyout d sp' (arg ++ [0]) then
          match ← pushArgs d sp' (argc + 1) argv with
          | none => pure none
          | some (sp'', at_) => pure (some (sp'', sp' :: at_))
        else pure none

/-- The bytes of a word. -/
def wordBytes (w : Nat) : List UInt8 :=
  [UInt8.ofNat w, UInt8.ofNat (w / 256), UInt8.ofNat (w / 65536), UInt8.ofNat (w / 16777216)]

/-- What `exec` puts on the stack in the end: a return address, `argc`, `argv` and the pointers. -/
def ustack (sp : Nat) (strings : List Nat) : List UInt8 :=
  ([0xffffffff, strings.length, usub sp ((strings.length + 1) * 4)] ++ strings ++ [0]).flatMap wordBytes

/-- The part of `exec` that fills the new address space; `none` is `goto bad`. -/
def buildImage (k : Link) (d : Nat) (readi : Readi) (phdrs : List (Option Proghdr))
    (argv : List (List UInt8)) : Prog Memory (Option Nat) := do
  match ← loadSegments k d readi 0 phdrs with
  | none => pure none
  | some sz => do
      -- The stack is one page, at the next page boundary.
      let sz' ← allocuvm k d (pgsize * pgroundup sz) (pgsize * pgroundup sz + pgsize)
      if sz' = 0 then pure none
      else
        match ← pushArgs d sz' 0 argv with
        | none => pure none
        | some (sp, strings) => do
            if ← copyout d (usub sp ((3 + strings.length + 1) * 4)) (ustack sp strings) then
              pure (some sz')
            else pure none

/-! ## The system calls -/

/-- What a process owns of memory. -/
structure Proc where
  kstack : Nat
  pgdir : Nat
  sz : Nat

/-- Memory and the process table; `none` is an `UNUSED` slot. -/
structure Machine where
  mem : Memory
  procs : Fin nproc → Option Proc

/-- Run a program on the memory. -/
def onMem {α : Type} (x : Prog Memory α) : Prog Machine α := fun s =>
  match x s.mem with
  | .ok (a, m) => .ok (a, { s with mem := m })
  | .error e => .error e

/-- The current process. -/
def current (i : Fin nproc) : Prog Machine Proc := do
  match ← look fun s : Machine => s.procs i with
  | none => halt "no process"
  | some p => pure p

/-- Fill a slot of the process table, or empty it. -/
def setProc (i : Fin nproc) (p : Option Proc) : Prog Machine Unit :=
  assign fun s => { s with procs := Function.update s.procs i p }

/-- The slot that `allocproc` takes. -/
def unused (s : Machine) : Option (Fin nproc) :=
  (List.finRange nproc).find? fun i => (s.procs i).isNone

/-- `fork`, with the stack that `allocproc` takes; `false` is `-1`. -/
def fork (k : Link) (i : Fin nproc) : Prog Machine Bool := do
  let p ← current i
  match ← look unused with
  | none => pure false
  | some np =>
      match ← onMem kalloc with
      | none => pure false
      | some kstack =>
          match ← onMem (copyuvm k p.pgdir p.sz) with
          | none => do
              onMem (kfree k kstack)
              pure false
          | some d => do
              setProc np (some ⟨kstack, d, p.sz⟩)
              pure true

/-- The part of `growproc` that maps or unmaps pages; the new size. -/
def growMemory (k : Link) (p : Proc) (n : Int32) : Prog Memory Nat :=
  if n > 0 then allocuvm k p.pgdir p.sz ((p.sz + n.toNatClampNeg) % 2 ^ 32)
  else if n < 0 then deallocuvm k p.pgdir p.sz (usub p.sz n.toInt.natAbs)
  else pure p.sz

/-- `growproc`, which is `sbrk` -/
def growproc (k : Link) (i : Fin nproc) (n : Int32) : Prog Machine Bool := do
  let p ← current i
  let sz ← onMem (growMemory k p n)
  if n ≠ 0 ∧ sz = 0 then pure false
  else do
    setProc i (some { p with sz := sz })
    pure true

/-- `exec` of a file, or of a path that `namei` does not find -/
def exec (k : Link) (i : Fin nproc) (ip : Option Binary) (argv : List (List UInt8)) :
    Prog Machine Bool := do
  let p ← current i
  match ip with
  | none => pure false
  | some bin =>
      match bin.phdrs with
      | none => pure false
      | some phdrs =>
          match ← onMem (setupkvm k) with
          | none => pure false
          | some d =>
              match ← onMem (buildImage k d bin.readi phdrs argv) with
              | none => do
                  onMem (freevm k d)
                  pure false
              | some sz => do
                  setProc i (some { p with pgdir := d, sz := sz })
                  onMem (freevm k p.pgdir)
                  pure true

/-- `wait` with a child that has exited, which frees its stack and its memory -/
def wait (k : Link) (j : Fin nproc) : Prog Machine Bool := do
  let p ← current j
  onMem (kfree k p.kstack)
  onMem (freevm k p.pgdir)
  setProc j none
  pure true

/-- The calls that allocate or free pages. -/
inductive Call where
  | fork (i : Fin nproc)
  | sbrk (i : Fin nproc) (n : Int32)
  | exec (i : Fin nproc) (ip : Option Binary) (argv : List (List UInt8))
  | wait (j : Fin nproc)

/-- Execute a call; `false` is a result of `-1`. -/
def execute (k : Link) : Call → Prog Machine Bool
  | .fork i => fork k i
  | .sbrk i n => growproc k i n
  | .exec i ip argv => exec k i ip argv
  | .wait j => wait k j

end Vm
end Xv6
end LfsXv6
