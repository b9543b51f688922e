import LfsXv6.Xv6.Layout
import LfsXv6.Xv6.NewSpace

/-!
# Exec — `exec` of an arbitrary file

The ELF header and the program headers are what the bytes of the file say.  `exec` is written once more
with the trap frame, and with a record of the page table entries through which it stores bytes of the
file and of the arguments; without them it is the `exec` of the page accounting.  It survives a file if
it neither panics nor stores anything outside the fresh user pages.  The checks in `exec` and
`allocuvm` leave out two things: that a segment starts at a page boundary, which `loaduvm` demands with a
panic, and that the sum of its address and its size does not wrap around, behind which `loaduvm` meets
pages that have not been allocated.
-/

namespace LfsXv6
namespace Xv6
namespace Vm

open Lib Prog

/-! ## Files -/

/-- `readi` of a regular file, with the bytes that it stores. -/
def readFile (data : List UInt8) : Readi := fun off n =>
  if off > data.length ∨ 2 ^ 32 ≤ off + n then (-1, [])
  else
    let n' := min n (data.length - off)
    (n', (data.drop off).take n')

/-- Bytes as memory. -/
def bytesMem (bytes : List UInt8) : Sector := fun o => bytes.getD o 0

/-- What `exec` reads of an ELF header. -/
structure Elfhdr where
  magic : UInt32
  entry : UInt32
  phoff : UInt32
  phnum : Nat
deriving DecidableEq

/-- `ELF_MAGIC` -/
def elfMagic : UInt32 := 0x464C457F

/-- `struct elfhdr` -/
def Elfhdr.decode (b : Sector) : Elfhdr where
  magic := b.word 0
  entry := b.word 6
  phoff := b.word 7
  phnum := (getShort b 44).toUInt16.toNat

/-- `struct proghdr` -/
def Proghdr.decode (b : Sector) : Proghdr where
  type := b.word 0
  offset := b.word 1
  va := b.word 2
  filesz := b.word 4
  memsz := b.word 5

/-- The check of the ELF header.  At offset 0 `readi` does not return -1. -/
def elfhdr (data : List UInt8) : Option Elfhdr :=
  let got := readFile data 0 52
  if got.1 < 52 then none
  else
    let elf := Elfhdr.decode (bytesMem got.2)
    if elf.magic ≠ elfMagic then none else some elf

/-- The program headers, each as far as it can be read. -/
def proghdrs (data : List UInt8) (elf : Elfhdr) : List (Option Proghdr) :=
  (List.range elf.phnum).map fun i =>
    let got := readFile data ((elf.phoff.toNat + 32 * i) % 2 ^ 32) 32
    if got.1 ≠ 32 then none else some (Proghdr.decode (bytesMem got.2))

/-- A regular file as `exec` opens it. -/
def Binary.ofFile (data : List UInt8) : Binary := ⟨readFile data, (elfhdr data).map (proghdrs data)⟩

/-! ## Loading, with a record of the stores -/

/-- Memory, and the page table entries through which bytes have been stored. -/
structure Loader where
  mem : Memory
  stores : List Nat

/-- Run a program that stores no bytes in user pages. -/
def quiet {α : Type} (x : Prog Memory α) : Prog Loader α := fun s =>
  match x s.mem with
  | .ok (a, m) => .ok (a, { s with mem := m })
  | .error e => .error e

/-- Store bytes in the page of an entry, from an offset on. -/
def store (w o : Nat) (bytes : List UInt8) : Prog Loader Unit := assign fun s =>
  { mem := s.mem.setPage (pteAddr w) (poke (s.mem.page (pteAddr w)) o bytes)
    stores := if bytes = [] then s.stores else w :: s.stores }

/-- What `exec` sets in the trap frame. -/
structure Trapframe where
  eip : UInt32
  esp : Nat

/-- A machine with the trap frames of its processes, and the stores of `exec`. -/
structure Task where
  mach : Machine
  tf : Fin nproc → Trapframe
  stores : List Nat

/-- Run a program that loads. -/
def onLoader {α : Type} (x : Prog Loader α) : Prog Task α := fun s =>
  match x ⟨s.mach.mem, s.stores⟩ with
  | .ok (a, l) => .ok (a, { s with mach := { s.mach with mem := l.mem }, stores := l.stores })
  | .error e => .error e

/-- Run a program on the machine. -/
def onMachine {α : Type} (x : Prog Machine α) : Prog Task α := fun s =>
  match x s.mach with
  | .ok (a, u) => .ok (a, { s with mach := u })
  | .error e => .error e

namespace Traced

/-- The loop of `loaduvm`, with the number of turns left. -/
def loadLoop (d addr : Nat) (readi : Readi) (offset sz : Nat) : Nat → Nat → Prog Loader Bool
  | 0, _ => pure true
  | n + 1, i => do
      match ← quiet (walkpgdir d ((addr + i) % 2 ^ 32 / pgsize) false) with
      | none => halt "loaduvm: address should exist"
      | some (t, j) => do
          let w ← look fun s => s.mem.page t j
          let got := readi ((offset + i) % 2 ^ 32) (min (sz - i) pgsize)
          store w 0 got.2
          if got.1 = min (sz - i) pgsize then loadLoop d addr readi offset sz n (i + pgsize)
          else pure false

/-- `loaduvm` -/
def loaduvm (d addr : Nat) (readi : Readi) (offset sz : Nat) : Prog Loader Bool :=
  if addr % pgsize ≠ 0 then halt "loaduvm: addr must be page aligned"
  else loadLoop d addr readi offset sz (pgroundup sz) 0

/-- `uva2ka`: the entry instead of the address in it, with 0 for the null pointer -/
def uva2ka (d vp : Nat) : Prog Loader Nat := do
  match ← quiet (walkpgdir d vp false) with
  | none => halt "uva2ka: no page table"
  | some (t, j) => do
      let w ← look fun s => s.mem.page t j
      if ¬ Present w then pure 0
      else if ¬ User w then pure 0
      else pure w

/-- The loop of `copyout`; every turn takes a byte at least. -/
def copyoutLoop (d : Nat) : Nat → Nat → List UInt8 → Prog Loader Bool
  | 0, _, _ => pure true
  | fuel + 1, va, buf =>
      if buf.length = 0 then pure true
      else do
        let w ← uva2ka d (va / pgsize)
        if pteAddr w = 0 then pure false
        else do
          let n := min (pgsize - va % pgsize) buf.length
          store w (va % pgsize) (buf.take n)
          copyoutLoop d fuel ((va / pgsize * pgsize + pgsize) % 2 ^ 32) (buf.drop n)

/-- `copyout` -/
def copyout (d va : Nat) (buf : List UInt8) : Prog Loader Bool := copyoutLoop d buf.length va buf

/-- The loop of `exec` over the program headers; `none` is `goto bad`. -/
def loadSegments (k : Link) (d : Nat) (readi : Readi) : Nat → List (Option Proghdr) →
    Prog Loader (Option Nat)
  | sz, [] => pure (some sz)
  | _, none :: _ => pure none
  | sz, some ph :: rest =>
      if ph.type ≠ elfProgLoad then loadSegments k d readi sz rest
      else if ph.memsz < ph.filesz then pure none
      else do
        let sz' ← quiet (allocuvm k d sz (ph.va + ph.memsz).toNat)
        if sz' = 0 then pure none
        else if ← loaduvm d ph.va.toNat readi ph.offset.toNat ph.filesz.toNat then
          loadSegments k d readi sz' rest
        else pure none

/-- The loop of `exec` over the arguments: the stack pointer and the addresses of the strings. -/
def pushArgs (d : Nat) : Nat → Nat → List (List UInt8) → Prog Loader (Option (Nat × List Nat))
  | sp, _, [] => pure (some (sp, []))
  | sp, argc, arg :: argv =>
      if argc ≥ maxarg then pure none
      else do
        let sp' := usub sp (arg.length + 1) / 4 * 4
        if ← copyout d sp' (arg ++ [0]) then
          match ← pushArgs d sp' (argc + 1) argv with
          | none => pure none
          | some (sp'', at_) => pure (some (sp'', sp' :: at_))
        else pure none

/-- The part of `exec` that fills the new address space: the size and the stack pointer; `none` is
`goto bad`. -/
def buildImage (k : Link) (d : Nat) (readi : Readi) (phdrs : List (Option Proghdr))
    (argv : List (List UInt8)) : Prog Loader (Option (Nat × Nat)) := do
  match ← loadSegments k d readi 0 phdrs with
  | none => pure none
  | some sz => do
      -- The stack is one page, at the next page boundary.
      let sz' ← quiet (allocuvm k d (pgsize * pgroundup sz) (pgsize * pgroundup sz + pgsize))
      if sz' = 0 then pure none
      else
        match ← pushArgs d sz' 0 argv with
        | none => pure none
        | some (sp, strings) => do
            let sp' := usub sp ((3 + strings.length + 1) * 4)
            if ← copyout d sp' (ustack sp strings) then pure (some (sz', sp'))
            else pure none

/-- The new image becomes that of the process. -/
def commit (i : Fin nproc) (p : Proc) (tf : Trapframe) : Prog Task Unit := assign fun s =>
  { s with
    mach := { s.mach with procs := Function.update s.mach.procs i (some p) }
    tf := Function.update s.tf i tf }

/-- `exec` of a regular file with these contents, or of a path that `namei` does not find -/
def exec (k : Link) (i : Fin nproc) (ip : Option (List UInt8)) (argv : List (List UInt8)) :
    Prog Task Bool := do
  let p ← onMachine (current i)
  match ip with
  | none => pure false
  | some data =>
      match elfhdr data with
      | none => pure false
      | some elf =>
          match ← onLoader (quiet (setupkvm k)) with
          | none => pure false
          | some d =>
              match ← onLoader (buildImage k d (readFile data) (proghdrs data elf) argv) with
              | none => do
                  onLoader (quiet (freevm k d))
                  pure false
              | some (sz, sp) => do
                  commit i { p with pgdir := d, sz := sz } ⟨elf.entry, sp⟩
                  onLoader (quiet (freevm k p.pgdir))
                  pure true

end Traced

/-! ## Without the record -/

section Shows

variable {k : Link} {d : Nat} {readi : Readi}

theorem shows_quiet {α : Type} (x : Prog Memory α) : Shows Loader.mem id (quiet x) x := by
  intro s
  unfold quiet
  cases hx : x s.mem with
  | ok r =>
      refine ⟨?_, ?_⟩
      · rintro a t h
        cases h
        rfl
      · rintro e h
        cases h
  | error e =>
      refine ⟨?_, ?_⟩
      · rintro a t h
        cases h
      · rintro e' h
        cases h
        rfl

/-- A store is the two steps that `Vm` takes for it. -/
theorem shows_store {α β : Type} {q : α → β} {w o : Nat} {bytes : List UInt8} {f : Prog Loader α}
    {f' : Prog Memory β} (h : Shows Loader.mem q f f') :
    Shows Loader.mem q (store w o bytes >>= fun _ => f)
      (look (fun m => m.page (pteAddr w)) >>= fun old => fill (pteAddr w) (poke old o bytes) >>= fun _ => f') :=
  fun _ => h _

theorem loadLoop_shows {addr offset sz turns i : Nat} :
    Shows Loader.mem id (Traced.loadLoop d addr readi offset sz turns i)
      (Vm.loadLoop d addr readi offset sz turns i) := by
  induction turns generalizing i with
  | zero => exact shows_pure true
  | succ turns ih =>
      refine shows_bind (shows_quiet _) ?_
      rintro (_ | ⟨t, j⟩)
      · exact shows_halt _
      · refine shows_bind (q := id) (shows_look fun _ => rfl) fun w => ?_
        exact shows_store (shows_ite ih (shows_pure false))

theorem loaduvm_shows {addr offset sz : Nat} :
    Shows Loader.mem id (Traced.loaduvm d addr readi offset sz) (Vm.loaduvm d addr readi offset sz) :=
  shows_ite (shows_halt _) loadLoop_shows

theorem uva2ka_shows {vp : Nat} : Shows Loader.mem pteAddr (Traced.uva2ka d vp) (Vm.uva2ka d vp) := by
  refine shows_bind (shows_quiet _) ?_
  rintro (_ | ⟨t, j⟩)
  · exact shows_halt _
  · refine shows_bind (q := id) (shows_look fun _ => rfl) fun w => ?_
    exact shows_ite (shows_pure 0) (shows_ite (shows_pure 0) (shows_pure w))

theorem copyoutLoop_shows {fuel va : Nat} {buf : List UInt8} :
    Shows Loader.mem id (Traced.copyoutLoop d fuel va buf) (Vm.copyoutLoop d fuel va buf) := by
  induction fuel generalizing va buf with
  | zero => exact shows_pure true
  | succ fuel ih =>
      refine shows_ite (shows_pure true) (shows_bind uva2ka_shows fun w => ?_)
      exact shows_ite (shows_pure false) (shows_store ih)

theorem loadSegments_shows {sz : Nat} {phdrs : List (Option Proghdr)} :
    Shows Loader.mem id (Traced.loadSegments k d readi sz phdrs) (Vm.loadSegments k d readi sz phdrs) := by
  induction phdrs generalizing sz with
  | nil => exact shows_pure _
  | cons x phdrs ih =>
      cases x with
      | none => exact shows_pure _
      | some ph =>
          refine shows_ite ih (shows_ite (shows_pure none) (shows_bind (shows_quiet _) fun sz' => ?_))
          refine shows_ite (shows_pure none) (shows_bind loaduvm_shows fun b => ?_)
          exact shows_ite ih (shows_pure none)

theorem pushArgs_shows {sp argc : Nat} {argv : List (List UInt8)} :
    Shows Loader.mem id (Traced.pushArgs d sp argc argv) (Vm.pushArgs d sp argc argv) := by
  induction argv generalizing sp argc with
  | nil => exact shows_pure _
  | cons arg argv ih =>
      refine shows_ite (shows_pure none) (shows_bind copyoutLoop_shows fun b => ?_)
      refine shows_ite (shows_bind ih ?_) (shows_pure none)
      rintro (_ | ⟨sp', strings⟩)
      · exact shows_pure none
      · exact shows_pure _

theorem buildImage_shows {phdrs : List (Option Proghdr)} {argv : List (List UInt8)} :
    Shows Loader.mem (Option.map Prod.fst) (Traced.buildImage k d readi phdrs argv)
      (Vm.buildImage k d readi phdrs argv) := by
  refine shows_bind loadSegments_shows ?_
  rintro (_ | sz)
  · exact shows_pure none
  · refine shows_bind (shows_quiet _) fun sz' => shows_ite (shows_pure none) ?_
    refine shows_bind pushArgs_shows ?_
    rintro (_ | ⟨sp, strings⟩)
    · exact shows_pure none
    · refine shows_bind copyoutLoop_shows fun b => ?_
      exact shows_ite (shows_pure (some _)) (shows_pure none)

theorem shows_onLoader {α β : Type} {q : α → β} {x : Prog Loader α} {y : Prog Memory β}
    (h : Shows Loader.mem q x y) : Shows Task.mach q (onLoader x) (onMem y) := by
  intro s
  obtain ⟨hok, herror⟩ := h ⟨s.mach.mem, s.stores⟩
  unfold onLoader onMem
  cases hx : x ⟨s.mach.mem, s.stores⟩ with
  | ok r =>
      have hy := hok r.1 r.2 hx
      refine ⟨?_, ?_⟩
      · rintro a t ht
        cases ht
        rw [hy]
      · rintro e ht
        cases ht
  | error e =>
      have hy := herror e hx
      refine ⟨?_, ?_⟩
      · rintro a t ht
        cases ht
      · rintro e' ht
        cases ht
        rw [hy]

theorem shows_onMachine {α : Type} (x : Prog Machine α) : Shows Task.mach id (onMachine x) x := by
  intro s
  unfold onMachine
  cases hx : x s.mach with
  | ok r =>
      refine ⟨?_, ?_⟩
      · rintro a t h
        cases h
        rfl
      · rintro e h
        cases h
  | error e =>
      refine ⟨?_, ?_⟩
      · rintro a t h
        cases h
      · rintro e' h
        cases h
        rfl

/-- Without the trap frame and the record, `exec` of a file is the `exec` of the page accounting. -/
theorem exec_shows {i : Fin nproc} {ip : Option (List UInt8)} {argv : List (List UInt8)} :
    Shows Task.mach id (Traced.exec k i ip argv) (Vm.exec k i (ip.map Binary.ofFile) argv) := by
  refine shows_bind (shows_onMachine _) fun p => ?_
  cases ip with
  | none => exact shows_pure false
  | some data =>
      cases helf : elfhdr data with
      | none =>
          simp only [helf, Option.map_some, Binary.ofFile, Option.map_none]
          exact shows_pure false
      | some elf =>
          simp only [helf, Option.map_some, Binary.ofFile]
          refine shows_bind (shows_onLoader (shows_quiet _)) ?_
          rintro (_ | d)
          · exact shows_pure false
          · refine shows_bind (shows_onLoader buildImage_shows) ?_
            rintro (_ | ⟨sz, sp⟩)
            · exact shows_bind (shows_onLoader (shows_quiet _)) fun _ => shows_pure false
            · refine shows_bind (shows_assign fun _ => rfl) fun _ => ?_
              exact shows_bind (shows_onLoader (shows_quiet _)) fun _ => shows_pure true

/-- What the page accounting says of `exec` holds of `exec` of a file. -/
theorem file_exec_settled {s t : Task} {i : Fin nproc} {ip : Option (List UInt8)} {argv : List (List UInt8)}
    {r : Bool} (h : Accounted s.mach) (hok : Spared s.mach (.exec i (ip.map Binary.ofFile) argv))
    (hrun : Traced.exec k i ip argv s = .ok (r, t)) : Settled s.mach t.mach r :=
  exec_settled h hok ((exec_shows s).1 r t hrun)

end Shows

/-! ## Segments that can be loaded -/

/-- The page that turn `t` of `loaduvm` stores in. -/
def segPage (va t : Nat) : Nat := (va + pgsize * t) % 2 ^ 32 / pgsize

/-- Turn `t` of `loaduvm`, with `n` pages mapped: the bytes of the file go to one of these.  At the end
of the file a page is looked up all the same. -/
def TurnSafe (size n va offset t : Nat) : Prop :=
  if offset + pgsize * t < size then segPage va t < n else pdx (segPage va t) ∈ kernelTables

/-- The turns from `t` on that `loaduvm` gets to. -/
def TurnsSafe (size n va offset sz t : Nat) : Prop :=
  ∀ t', t ≤ t' → t' < pgroundup sz → t' = 0 ∨ offset + pgsize * t' ≤ size → TurnSafe size n va offset t'

/-- A segment that `loaduvm` can load: it starts at a page boundary, and all bytes go to the `n` pages
that are mapped. -/
def Loadable (size n : Nat) (ph : Proghdr) : Prop :=
  ph.va.toNat % pgsize = 0 ∧ TurnsSafe size n ph.va.toNat ph.offset.toNat ph.filesz.toNat 0

/-- The file has all bytes of the segment. -/
def Complete (size : Nat) (ph : Proghdr) : Prop :=
  ph.filesz.toNat = 0 ∨ ph.offset.toNat + ph.filesz.toNat ≤ size

/-- The size of the process with one more segment. -/
def grownSize (sz : Nat) (ph : Proghdr) : Nat := max (ph.va + ph.memsz).toNat sz

/-- The checks of `exec` and `allocuvm` on a segment, with `room` pages for the process. -/
def Admitted (room sz : Nat) (ph : Proghdr) : Prop :=
  ph.type = elfProgLoad ∧ ph.filesz ≤ ph.memsz ∧ (ph.va + ph.memsz).toNat ≤ usertop ∧
    grownSize sz ph ≠ 0 ∧ pgroundup (grownSize sz ph) + 13 ≤ room

/-- Every segment that `exec` gets to can be loaded. -/
def AllLoadable (size room : Nat) : Nat → List (Option Proghdr) → Prop
  | _, [] => True
  | _, none :: _ => True
  | sz, some ph :: rest =>
      (ph.type ≠ elfProgLoad → AllLoadable size room sz rest) ∧
        (Admitted room sz ph → Loadable size (pgroundup (grownSize sz ph)) ph ∧
          (Complete size ph → AllLoadable size room (grownSize sz ph) rest))

/-- A file that `exec` survives: it has no ELF header, there is no memory for a page directory, or all
segments can be loaded. -/
def Harmless (room : Nat) (data : List UInt8) : Prop :=
  ∀ elf, elfhdr data = some elf → 13 ≤ room → AllLoadable data.length room 0 (proghdrs data elf)

/-! ## Stores -/

/-- An entry for a user page that was free. -/
def FreshUser (fresh : List Nat) (w : Nat) : Prop := Present w ∧ User w ∧ pteAddr w ∈ fresh

/-- Bytes have been stored in fresh user pages only. -/
def Sound (fresh : List Nat) (s : Loader) : Prop := ∀ w ∈ s.stores, FreshUser fresh w

/-- Nothing is deleted from the record. -/
def Recorded (s t : Loader) : Prop := ∀ w ∈ s.stores, w ∈ t.stores

section Record

variable {k : Link} {d : Nat} {readi : Readi} {fresh : List Nat} {s t : Loader}

theorem recorded_refl (s : Loader) : Recorded s s := fun _ => id

theorem recorded_trans (s t u : Loader) (h : Recorded s t) (h' : Recorded t u) : Recorded s u :=
  fun w hw => h' w (h w hw)

theorem Recorded.stray (h : Recorded s t) (hs : ¬ Sound fresh s) : ¬ Sound fresh t :=
  fun ht => hs fun w hw => ht w (h w hw)

theorem moves_quiet {α : Type} (x : Prog Memory α) : Moves Recorded (quiet x) := by
  intro s a t h
  unfold quiet at h
  split at h
  · cases h
    exact recorded_refl s
  · cases h

theorem moves_store {w o : Nat} {bytes : List UInt8} : Moves Recorded (store w o bytes) := by
  refine moves_assign ?_
  intro s w' hw'
  show w' ∈ if bytes = [] then s.stores else w :: s.stores
  split
  · exact hw'
  · exact List.mem_cons_of_mem _ hw'

theorem loadLoop_moves {addr offset sz turns i : Nat} :
    Moves Recorded (Traced.loadLoop d addr readi offset sz turns i) := by
  induction turns generalizing i with
  | zero => exact moves_pure recorded_refl true
  | succ turns ih =>
      refine moves_bind recorded_trans (moves_quiet _) ?_
      rintro (_ | ⟨t, j⟩)
      · exact moves_halt _
      · refine moves_bind recorded_trans (moves_look recorded_refl _) fun w => ?_
        exact moves_bind recorded_trans moves_store fun _ => moves_ite ih (moves_pure recorded_refl false)

theorem loaduvm_moves {addr offset sz : Nat} : Moves Recorded (Traced.loaduvm d addr readi offset sz) :=
  moves_ite (moves_halt _) loadLoop_moves

theorem uva2ka_moves {vp : Nat} : Moves Recorded (Traced.uva2ka d vp) := by
  refine moves_bind recorded_trans (moves_quiet _) ?_
  rintro (_ | ⟨t, j⟩)
  · exact moves_halt _
  · refine moves_bind recorded_trans (moves_look recorded_refl _) fun w => ?_
    exact moves_ite (moves_pure recorded_refl 0)
      (moves_ite (moves_pure recorded_refl 0) (moves_pure recorded_refl w))

theorem copyoutLoop_moves {fuel va : Nat} {buf : List UInt8} :
    Moves Recorded (Traced.copyoutLoop d fuel va buf) := by
  induction fuel generalizing va buf with
  | zero => exact moves_pure recorded_refl true
  | succ fuel ih =>
      refine moves_ite (moves_pure recorded_refl true) (moves_bind recorded_trans uva2ka_moves fun w => ?_)
      exact moves_ite (moves_pure recorded_refl false)
        (moves_bind recorded_trans moves_store fun _ => ih)

theorem loadSegments_moves {sz : Nat} {phdrs : List (Option Proghdr)} :
    Moves Recorded (Traced.loadSegments k d readi sz phdrs) := by
  induction phdrs generalizing sz with
  | nil => exact moves_pure recorded_refl _
  | cons x phdrs ih =>
      cases x with
      | none => exact moves_pure recorded_refl _
      | some ph =>
          refine moves_ite ih (moves_ite (moves_pure recorded_refl none) ?_)
          refine moves_bind recorded_trans (moves_quiet _) fun sz' => ?_
          refine moves_ite (moves_pure recorded_refl none) ?_
          refine moves_bind recorded_trans loaduvm_moves fun b => ?_
          exact moves_ite ih (moves_pure recorded_refl none)

theorem pushArgs_moves {sp argc : Nat} {argv : List (List UInt8)} :
    Moves Recorded (Traced.pushArgs d sp argc argv) := by
  induction argv generalizing sp argc with
  | nil => exact moves_pure recorded_refl _
  | cons arg argv ih =>
      refine moves_ite (moves_pure recorded_refl none) ?_
      refine moves_bind recorded_trans copyoutLoop_moves fun b => ?_
      refine moves_ite (moves_bind recorded_trans ih ?_) (moves_pure recorded_refl none)
      rintro (_ | ⟨sp', strings⟩)
      · exact moves_pure recorded_refl none
      · exact moves_pure recorded_refl _

end Record

/-! ## Loading -/

/-- An address space under construction, with only fresh user pages stored in. -/
structure Filled (k : Link) (fresh : List Nat) (s : Loader) (d n : Nat) : Prop where
  space : NewSpace k fresh s.mem d n
  sound : Sound fresh s

section Loading

variable {k : Link} {fresh : List Nat} {s : Loader} {d n va offset sz t turns : Nat} {data : List UInt8}

theorem quiet_ok {α : Type} {x : Prog Memory α} {a : α} {m : Memory} (h : x s.mem = .ok (a, m)) :
    quiet x s = .ok (a, { s with mem := m }) := by
  unfold quiet
  rw [h]

theorem store_nil (w : Nat) : store w 0 [] s = .ok ((), s) := by
  have hpage : s.mem.setPage (pteAddr w) (s.mem.page (pteAddr w)) = s.mem := by
    unfold Memory.setPage
    rw [Function.update_eq_self]
  show Except.ok ((), (⟨s.mem.setPage (pteAddr w) (poke (s.mem.page (pteAddr w)) 0 []), s.stores⟩ : Loader)) = _
  rw [poke_nil, hpage]

theorem readFile_spec (hsize : data.length ≤ maxfile * bsize) {n : Nat} (off : Nat) (hn : 0 < n)
    (hn' : n ≤ pgsize) :
    ((readFile data off n).1 = n ↔ off + n ≤ data.length) ∧
      ((readFile data off n).2 = [] ↔ data.length ≤ off) := by
  simp only [maxfile, bsize] at hsize
  simp only [pgsize] at hn'
  unfold readFile
  split
  · rename_i hout
    exact ⟨iff_of_false (by simp only; omega) (by omega), iff_of_true rfl (by omega)⟩
  · rename_i hin
    refine ⟨?_, ?_⟩
    · simp only
      omega
    · simp only [List.take_eq_nil_iff, List.drop_eq_nil_iff]
      omega

namespace Filled

theorem walk (h : Filled k fresh s d n) {vp : Nat} (hvp : vp < n) :
    quiet (walkpgdir d vp false) s = .ok (some (first s.mem d, ptx vp), s) := by
  have htop := h.space.top
  refine quiet_ok ?_
  rw [walkpgdir_found (by rw [pdx_user (by omega)]; exact h.space.space.dir), pdx_user (by omega)]
  rfl

/-- Bytes are stored in a user page. -/
theorem store (h : Filled k fresh s d n) {j : Fin 1024} (hj : j.val < n) (o : Nat) (bytes : List UInt8) :
    ∃ u, store (s.mem.page (first s.mem d) j) o bytes s = .ok ((), u) ∧ Moved d s.mem u.mem ∧
      Filled k fresh u d n := by
  obtain ⟨hw, hspace⟩ := h.space.store hj
    (poke (s.mem.page (pteAddr (s.mem.page (first s.mem d) j))) o bytes)
  refine ⟨_, rfl, hw.moved, hspace, ?_⟩
  intro w hw'
  change w ∈ if bytes = [] then s.stores else s.mem.page (first s.mem d) j :: s.stores at hw'
  split at hw'
  · exact h.sound w hw'
  · rcases List.mem_cons.mp hw' with rfl | hw'
    · exact h.space.entry hj
    · exact h.sound w hw'

end Filled

theorem offset_mod (hsize : data.length ≤ maxfile * bsize) (hoff : offset < 2 ^ 32)
    (hreach : t = 0 ∨ offset + pgsize * t ≤ data.length) :
    (offset + pgsize * t) % 2 ^ 32 = offset + pgsize * t := by
  simp only [maxfile, bsize] at hsize
  simp only [pgsize] at hreach ⊢
  omega

/-- A turn of `loaduvm`: it stores in a user page, or there is nothing left to read. -/
theorem loadLoop_turn (hsize : data.length ≤ maxfile * bsize) (h : Filled k fresh s d n)
    (hoff : offset < 2 ^ 32) (hreach : t = 0 ∨ offset + pgsize * t ≤ data.length)
    (hturns : t + (turns + 1) = pgroundup sz) (hsafe : TurnSafe data.length n va offset t) :
    ∃ u, Moved d s.mem u.mem ∧ Filled k fresh u d n ∧
      Traced.loadLoop d va (readFile data) offset sz (turns + 1) (pgsize * t) s =
        if offset + pgsize * t + min (sz - pgsize * t) pgsize ≤ data.length then
          Traced.loadLoop d va (readFile data) offset sz turns (pgsize * (t + 1)) u
        else .ok (false, u) := by
  have hpos : 0 < min (sz - pgsize * t) pgsize := by
    simp only [pgroundup] at hturns
    simp only [pgsize]
    omega
  obtain ⟨hcount, hbytes⟩ := readFile_spec hsize (offset + pgsize * t) hpos (min_le_right _ _)
  have hmod := offset_mod hsize hoff hreach
  -- once the entry is found, the turn stores and looks at the count
  have hturn : ∀ e u, (∃ tj : Nat × Fin 1024, quiet (walkpgdir d (segPage va t) false) s = .ok (some tj, s) ∧
        s.mem.page tj.1 tj.2 = e) →
      Vm.store e 0 (readFile data (offset + pgsize * t) (min (sz - pgsize * t) pgsize)).2 s = .ok ((), u) →
      Traced.loadLoop d va (readFile data) offset sz (turns + 1) (pgsize * t) s =
        if offset + pgsize * t + min (sz - pgsize * t) pgsize ≤ data.length then
          Traced.loadLoop d va (readFile data) offset sz turns (pgsize * (t + 1)) u
        else .ok (false, u) := by
    rintro e u ⟨tj, hwalk, rfl⟩ hstore
    rw [Traced.loadLoop, hmod]
    unfold segPage at hwalk
    rw [bind_of_ok hwalk]
    simp only
    rw [bind_of_ok (x := look fun s : Loader => s.mem.page tj.1 tj.2) (s := s) rfl, bind_of_ok hstore]
    by_cases hfull : offset + pgsize * t + min (sz - pgsize * t) pgsize ≤ data.length
    · rw [if_pos (hcount.mpr hfull), if_pos hfull, Nat.mul_add, Nat.mul_one]
    · rw [if_neg fun hc => hfull (hcount.mp hc), if_neg hfull]
      rfl
  unfold TurnSafe at hsafe
  split at hsafe
  · -- bytes of the file, and a user page
    have htop := h.space.top
    obtain ⟨u, hstore, hmoved, hfilled⟩ := h.store (j := ptx (segPage va t))
      (by rw [ptx_user (by omega)]; exact hsafe) 0
      (readFile data (offset + pgsize * t) (min (sz - pgsize * t) pgsize)).2
    exact ⟨u, hmoved, hfilled, hturn _ u ⟨_, h.walk hsafe, rfl⟩ hstore⟩
  · rename_i hend
    have hwalk : walkpgdir d (segPage va t) false s.mem = .ok (some _, s.mem) :=
      walkpgdir_found ((h.space.table _).mpr hsafe)
    refine ⟨s, .refl .., h, hturn _ s ⟨_, quiet_ok hwalk, rfl⟩ ?_⟩
    rw [hbytes.mpr (by omega)]
    exact store_nil _

/-- The turns of `loaduvm`: it ends well if the file has all bytes of the segment. -/
theorem loadLoop_run (hsize : data.length ≤ maxfile * bsize) (h : Filled k fresh s d n)
    (hoff : offset < 2 ^ 32) (hreach : t = 0 ∨ offset + pgsize * t ≤ data.length)
    (hturns : t + turns = pgroundup sz) (hsafe : TurnsSafe data.length n va offset sz t) :
    ∃ r u, Traced.loadLoop d va (readFile data) offset sz turns (pgsize * t) s = .ok (r, u) ∧
      Moved d s.mem u.mem ∧ Filled k fresh u d n ∧
      (r = true ↔ turns = 0 ∨ offset + sz ≤ data.length) := by
  induction turns generalizing s t with
  | zero => exact ⟨true, s, rfl, .refl .., h, iff_of_true rfl (.inl rfl)⟩
  | succ turns ih =>
      obtain ⟨u, hmoved, hfilled, hrun⟩ := loadLoop_turn hsize h hoff hreach hturns
        (hsafe t le_rfl (by omega) hreach)
      have hround : pgroundup sz = t + (turns + 1) := hturns.symm
      simp only [pgroundup] at hround
      by_cases hfull : offset + pgsize * t + min (sz - pgsize * t) pgsize ≤ data.length
      · rw [if_pos hfull] at hrun
        simp only [pgsize] at hfull
        rcases Nat.eq_zero_or_pos turns with rfl | hmore
        · refine ⟨true, u, hrun, hmoved, hfilled, iff_of_true rfl (.inr ?_)⟩
          omega
        · obtain ⟨r, v, hrest, hmoved', hfilled', hr⟩ := ih hfilled (t := t + 1)
            (.inr (by simp only [pgsize]; omega)) (by omega)
            fun t' ht' => hsafe t' (by omega)
          refine ⟨r, v, hrun.trans hrest, hmoved.trans hmoved', hfilled', ?_⟩
          rw [hr]
          omega
      · rw [if_neg hfull] at hrun
        simp only [pgsize] at hfull
        refine ⟨false, u, hrun, hmoved, hfilled, iff_of_false Bool.false_ne_true ?_⟩
        omega

/-- An entry outside the mapped user pages is not one of a fresh user page. -/
theorem not_freshUser (h : NewSpace k fresh s.mem d n) {vp : Nat} (hvp : n ≤ vp) (hhi : vp < 2 ^ 20)
    (hp : Present (s.mem.page d (pdx vp))) :
    ¬ FreshUser fresh (s.mem.page (pteAddr (s.mem.page d (pdx vp))) (ptx vp)) := by
  rintro ⟨hpres, huser, -⟩
  by_cases hplace : pdx vp = 0 ∧ (ptx vp).val < 160
  · rw [hplace.1] at hpres
    have hlt := (h.space.user (ptx vp) hplace.2).mp hpres
    have h0 : vp / 1024 % 1024 = 0 := congrArg Fin.val hplace.1
    have hval : vp % 1024 < n := hlt
    omega
  · refine h.space.kernel (pdx vp) (ptx vp) hp ?_ huser
    by_cases h0 : pdx vp = 0
    · exact .inr (by by_contra hlt; exact hplace ⟨h0, by omega⟩)
    · exact .inl h0

/-- A turn that is not safe: it panics, or it stores where it should not. -/
theorem loadLoop_turn_stray (hsize : data.length ≤ maxfile * bsize) (h : NewSpace k fresh s.mem d n)
    (hoff : offset < 2 ^ 32) (hreach : t = 0 ∨ offset + pgsize * t ≤ data.length)
    (hturns : t + (turns + 1) = pgroundup sz) (hsafe : ¬ TurnSafe data.length n va offset t) {r : Bool}
    {u : Loader}
    (hrun : Traced.loadLoop d va (readFile data) offset sz (turns + 1) (pgsize * t) s = .ok (r, u)) :
    ¬ Sound fresh u := by
  have hpos : 0 < min (sz - pgsize * t) pgsize := by
    simp only [pgroundup] at hturns
    simp only [pgsize]
    omega
  obtain ⟨-, hbytes⟩ := readFile_spec hsize (offset + pgsize * t) hpos (min_le_right _ _)
  have hhi : segPage va t < 2 ^ 20 := by
    simp only [segPage, pgsize]
    omega
  rw [Traced.loadLoop, offset_mod hsize hoff hreach] at hrun
  change (quiet (walkpgdir d (segPage va t) false) >>= _) s = _ at hrun
  by_cases hp : Present (s.mem.page d (pdx (segPage va t)))
  · have hwalk : walkpgdir d (segPage va t) false s.mem = .ok (some _, s.mem) := walkpgdir_found hp
    rw [bind_of_ok (quiet_ok hwalk)] at hrun
    obtain ⟨w, v, hw, hrun⟩ := bind_eq_ok hrun
    cases hw
    obtain ⟨_, v, hstore, hrun⟩ := bind_eq_ok hrun
    have hv := assign_eq_ok hstore
    -- a page with a table, so the turn is unsafe for the bytes that it stores
    unfold TurnSafe at hsafe
    split at hsafe
    · rename_i hin
      have hne : (readFile data (offset + pgsize * t) (min (sz - pgsize * t) pgsize)).2 ≠ [] :=
        fun hc => absurd (hbytes.mp hc) (by omega)
      have hbad := not_freshUser h (by omega) hhi hp
      have hmem : s.mem.page (pteAddr (s.mem.page d (pdx (segPage va t)))) (ptx (segPage va t)) ∈
          v.stores := by
        rw [hv]
        show _ ∈ if _ = [] then _ else _
        rw [if_neg hne]
        exact List.mem_cons_self
      have hstray : ¬ Sound fresh v := fun hs => hbad (hs _ hmem)
      split at hrun
      · exact (loadLoop_moves _ _ _ hrun).stray hstray
      · cases hrun
        exact hstray
    · exact absurd ((h.table _).mp hp) hsafe
  · rw [bind_of_ok (quiet_ok (walkpgdir_absent hp))] at hrun
    cases hrun

theorem loadLoop_stray (hsize : data.length ≤ maxfile * bsize) (h : Filled k fresh s d n)
    (hoff : offset < 2 ^ 32) (hreach : t = 0 ∨ offset + pgsize * t ≤ data.length)
    (hturns : t + turns = pgroundup sz) (hsafe : ¬ TurnsSafe data.length n va offset sz t) {r : Bool}
    {u : Loader}
    (hrun : Traced.loadLoop d va (readFile data) offset sz turns (pgsize * t) s = .ok (r, u)) :
    ¬ Sound fresh u := by
  induction turns generalizing s t with
  | zero => exact absurd (fun t' ht' hlt => absurd hlt (by omega)) hsafe
  | succ turns ih =>
      by_cases hturn : TurnSafe data.length n va offset t
      · -- the turn that is not safe comes later, so this one reads all that it asks for
        obtain ⟨v, -, hfilled, hstep⟩ := loadLoop_turn hsize h hoff hreach hturns hturn
        have hlater : ¬ TurnsSafe data.length n va offset sz (t + 1) := by
          intro hc
          refine hsafe fun t' ht' hlt hreach' => ?_
          rcases Nat.eq_or_lt_of_le ht' with rfl | hlt'
          · exact hturn
          · exact hc t' hlt' hlt hreach'
        have hnext : offset + pgsize * (t + 1) ≤ data.length ∧ t + 1 < pgroundup sz := by
          by_contra hc
          refine hlater fun t' ht' hlt hreach' => absurd ⟨?_, by omega⟩ hc
          rcases hreach' with h0 | hle
          · omega
          · exact (Nat.add_le_add_left (Nat.mul_le_mul_left _ ht') _).trans hle
        have hlong : 4096 * (t + 1) < sz := by
          have hlt := hnext.2
          simp only [pgroundup] at hlt
          omega
        have hfull : offset + pgsize * t + min (sz - pgsize * t) pgsize ≤ data.length := by
          have hle := hnext.1
          simp only [pgsize] at hle ⊢
          omega
        rw [hstep, if_pos hfull] at hrun
        exact ih hfilled (.inr hnext.1) (by omega) hlater hrun
      · exact loadLoop_turn_stray hsize h.space hoff hreach hturns hturn hrun

end Loading

/-! ## Segments -/

section Segments

variable {k : Link} {fresh : List Nat} {s : Loader} {d n sz : Nat} {data : List UInt8} {ph : Proghdr}
variable {phdrs : List (Option Proghdr)}

theorem loaduvm_run (hsize : data.length ≤ maxfile * bsize) (h : Filled k fresh s d n)
    (hload : Loadable data.length n ph) :
    ∃ r u, Traced.loaduvm d ph.va.toNat (readFile data) ph.offset.toNat ph.filesz.toNat s = .ok (r, u) ∧
      Moved d s.mem u.mem ∧ Filled k fresh u d n ∧ (r = true ↔ Complete data.length ph) := by
  obtain ⟨r, u, hrun, hmoved, hfilled, hr⟩ := loadLoop_run (t := 0) hsize h ph.offset.toNat_lt (.inl rfl)
    (Nat.zero_add _) hload.2
  refine ⟨r, u, ?_, hmoved, hfilled, hr.trans ?_⟩
  · rw [Traced.loaduvm, if_neg (not_not.mpr hload.1)]
    exact hrun
  · unfold Complete pgroundup
    omega

theorem loaduvm_stray (hsize : data.length ≤ maxfile * bsize) (h : Filled k fresh s d n)
    (hload : ¬ Loadable data.length n ph) {r : Bool} {u : Loader}
    (hrun : Traced.loaduvm d ph.va.toNat (readFile data) ph.offset.toNat ph.filesz.toNat s = .ok (r, u)) :
    ¬ Sound fresh u := by
  unfold Traced.loaduvm at hrun
  split at hrun
  · cases hrun
  · rename_i halign
    exact loadLoop_stray (t := 0) hsize h ph.offset.toNat_lt (.inl rfl) (Nat.zero_add _)
      (fun hc => hload ⟨not_not.mp halign, hc⟩) hrun

/-- What the part of `exec` that fills the new address space leaves behind, however it ends. -/
structure Underway (k : Link) (fresh : List Nat) (d : Nat) (s u : Loader) : Prop where
  moved : Moved d s.mem u.mem
  tidy : Tidy k u.mem d
  sound : Sound fresh u

theorem Filled.underway {u : Loader} (h : Filled k fresh u d n) (hmoved : Moved d s.mem u.mem) :
    Underway k fresh d s u := ⟨hmoved, h.space.tidy, h.sound⟩

theorem Underway.after {t u : Loader} (h : Underway k fresh d t u) (hmoved : Moved d s.mem t.mem) :
    Underway k fresh d s u := ⟨hmoved.trans h.moved, h.tidy, h.sound⟩

/-- `allocuvm` as the loaders call it. -/
theorem Filled.alloc (h : Filled k fresh s d (pgroundup sz)) (hsz : sz ≤ usertop) (newsz : Nat) :
    ∃ r u, quiet (allocuvm k d sz newsz) s = .ok (r, u) ∧ Underway k fresh d s u ∧
      (r ≠ 0 ↔ newsz ≤ usertop ∧ max newsz sz ≠ 0 ∧ pgroundup (max newsz sz) + 13 ≤ fresh.length) ∧
      (r ≠ 0 → r = max newsz sz ∧ r ≤ usertop ∧ Filled k fresh u d (pgroundup r)) := by
  obtain ⟨r, m, hrun, hw, hiff, hgood⟩ := h.space.alloc_run newsz hsz
  refine ⟨r, _, quiet_ok hrun, ⟨hw.moved, h.space.tidy.within hw, h.sound⟩, hiff, ?_⟩
  intro hr
  obtain ⟨hval, htop, hspace⟩ := hgood hr
  exact ⟨hval, htop, hspace, h.sound⟩

theorem admitted_iff (htype : ph.type = elfProgLoad) (hmem : ¬ ph.memsz < ph.filesz) {room : Nat} :
    Admitted room sz ph ↔ (ph.va + ph.memsz).toNat ≤ usertop ∧ max (ph.va + ph.memsz).toNat sz ≠ 0 ∧
      pgroundup (max (ph.va + ph.memsz).toNat sz) + 13 ≤ room :=
  ⟨fun h => h.2.2, fun h => ⟨htype, UInt32.not_lt.mp hmem, h⟩⟩

/-- The loop over the program headers returns where all segments can be loaded. -/
theorem loadSegments_run (sz : Nat) (hsize : data.length ≤ maxfile * bsize)
    (h : Filled k fresh s d (pgroundup sz)) (hsz : sz ≤ usertop)
    (hall : AllLoadable data.length fresh.length sz phdrs) :
    ∃ r u, Traced.loadSegments k d (readFile data) sz phdrs s = .ok (r, u) ∧ Underway k fresh d s u ∧
      ∀ sz', r = some sz' → sz' ≤ usertop ∧ Filled k fresh u d (pgroundup sz') := by
  induction phdrs generalizing sz s with
  | nil =>
      refine ⟨some sz, s, rfl, h.underway (.refl ..), ?_⟩
      intro sz' hr
      cases hr
      exact ⟨hsz, h⟩
  | cons x phdrs ih =>
      cases x with
      | none => exact ⟨none, s, rfl, h.underway (.refl ..), fun sz' hr => by cases hr⟩
      | some ph =>
          rw [AllLoadable] at hall
          rw [Traced.loadSegments]
          by_cases htype : ph.type = elfProgLoad
          · rw [if_neg (not_not.mpr htype)]
            by_cases hmem : ph.memsz < ph.filesz
            · rw [if_pos hmem]
              exact ⟨none, s, rfl, h.underway (.refl ..), fun sz' hr => by cases hr⟩
            · rw [if_neg hmem]
              obtain ⟨r, u, halloc, hunder, hiff, hgood⟩ := h.alloc hsz (ph.va + ph.memsz).toNat
              rw [← admitted_iff htype hmem] at hiff
              rw [bind_of_ok halloc]
              by_cases h0 : r = 0
              · rw [if_pos h0]
                exact ⟨none, u, rfl, hunder, fun sz' hr => by cases hr⟩
              · rw [if_neg h0]
                obtain ⟨hval, htop, hfilled⟩ := hgood h0
                obtain ⟨hload, hnext⟩ := hall.2 (hiff.mp h0)
                change r = grownSize sz ph at hval
                rw [← hval] at hload hnext
                obtain ⟨b, v, hrun, hmoved, hfilled', hb⟩ := loaduvm_run hsize hfilled hload
                rw [bind_of_ok hrun]
                cases b with
                | false =>
                    exact ⟨none, v, rfl, (hfilled'.underway hmoved).after hunder.moved,
                      fun sz' hr => by cases hr⟩
                | true =>
                    obtain ⟨r', w, hrest, hunder', hres⟩ := ih _ hfilled' htop (hnext (hb.mp rfl))
                    exact ⟨r', w, hrest, hunder'.after (hunder.moved.trans hmoved), hres⟩
          · rw [if_pos htype]
            exact ih _ h hsz (hall.1 htype)

/-- Where a segment cannot be loaded, the loop panics or stores where it should not. -/
theorem loadSegments_stray (sz : Nat) (hsize : data.length ≤ maxfile * bsize)
    (h : Filled k fresh s d (pgroundup sz)) (hsz : sz ≤ usertop)
    (hall : ¬ AllLoadable data.length fresh.length sz phdrs) {r : Option Nat} {u : Loader}
    (hrun : Traced.loadSegments k d (readFile data) sz phdrs s = .ok (r, u)) : ¬ Sound fresh u := by
  induction phdrs generalizing sz s with
  | nil => exact absurd trivial hall
  | cons x phdrs ih =>
      cases x with
      | none => exact absurd trivial hall
      | some ph =>
          rw [AllLoadable] at hall
          rw [Traced.loadSegments] at hrun
          by_cases htype : ph.type = elfProgLoad
          · rw [if_neg (not_not.mpr htype)] at hrun
            have hadm : Admitted fresh.length sz ph := by
              by_contra hc
              exact hall ⟨fun hne => absurd htype hne, fun ha => absurd ha hc⟩
            have hmem : ¬ ph.memsz < ph.filesz := UInt32.not_lt.mpr hadm.2.1
            rw [if_neg hmem] at hrun
            obtain ⟨r', t, halloc, -, hiff, hgood⟩ := h.alloc hsz (ph.va + ph.memsz).toNat
            rw [← admitted_iff htype hmem] at hiff
            have h0 : r' ≠ 0 := hiff.mpr hadm
            obtain ⟨hval, htop, hfilled⟩ := hgood h0
            change r' = grownSize sz ph at hval
            rw [bind_of_ok halloc, if_neg h0] at hrun
            obtain ⟨b, v, hload, hrest⟩ := bind_eq_ok hrun
            by_cases hok : Loadable data.length (pgroundup r') ph
            · -- this segment is loaded in full, and the loop goes on
              obtain ⟨b', v', hload', -, hfilled', hb⟩ := loaduvm_run hsize hfilled hok
              rw [hload'] at hload
              cases hload
              rw [hval] at hok
              have hfull : Complete data.length ph := by
                by_contra hc
                exact hall ⟨fun hne => absurd htype hne, fun _ => ⟨hok, fun hcomp => absurd hcomp hc⟩⟩
              have hnext : ¬ AllLoadable data.length fresh.length r' phdrs := by
                intro hc
                rw [hval] at hc
                exact hall ⟨fun hne => absurd htype hne, fun _ => ⟨hok, fun _ => hc⟩⟩
              rw [if_pos (hb.mpr hfull)] at hrest
              exact ih _ hfilled' htop hnext hrest
            · have hstray := loaduvm_stray hsize hfilled hok hload
              split at hrest
              · exact (loadSegments_moves _ _ _ hrest).stray hstray
              · cases hrest
                exact hstray
          · rw [if_pos htype] at hrun
            refine ih _ h hsz (fun hc => hall ⟨fun _ => hc, fun ha => absurd ha.1 htype⟩) hrun

end Segments

/-! ## Arguments -/

section Arguments

variable {k : Link} {fresh : List Nat} {s : Loader} {d n va sp : Nat} {buf : List UInt8}
variable {argv : List (List UInt8)}

theorem uva2ka_user (h : Filled k fresh s d n) {vp : Nat} (hvp : vp < n) :
    Traced.uva2ka d vp s = .ok (s.mem.page (first s.mem d) (ptx vp), s) := by
  have htop := h.space.top
  obtain ⟨hpres, huser, -⟩ := h.space.entry (j := ptx vp) (by rw [ptx_user (by omega)]; exact hvp)
  rw [Traced.uva2ka, bind_of_ok (h.walk hvp)]
  simp only
  rw [bind_of_ok (x := look fun u : Loader => u.mem.page (first s.mem d) (ptx vp)) (s := s) rfl,
    if_neg (not_not.mpr hpres), if_neg (not_not.mpr huser)]
  rfl

/-- Behind the kernel's device mappings `uva2ka` finds nothing. -/
theorem uva2ka_device (h : Filled k fresh s d n) (vp : Nat) (hlo : 0xFE000 ≤ vp) (hhi : vp < 2 ^ 20) :
    Traced.uva2ka d vp s = .ok (0, s) := by
  have htable : Present (s.mem.page d (pdx vp)) := by
    rw [h.space.table, mem_kernelTables]
    right
    show 1016 ≤ vp / 1024 % 1024
    omega
  have hne : pdx vp ≠ 0 := by
    intro hc
    have h0 : vp / 1024 % 1024 = 0 := congrArg Fin.val hc
    omega
  have huser := h.space.space.kernel (pdx vp) (ptx vp) htable (.inl hne)
  have hwalk : quiet (walkpgdir d vp false) s =
      .ok (some (pteAddr (s.mem.page d (pdx vp)), ptx vp), s) := quiet_ok (walkpgdir_found htable)
  rw [Traced.uva2ka, bind_of_ok hwalk]
  simp only
  rw [bind_of_ok (x := look fun u : Loader => u.mem.page (pteAddr (s.mem.page d (pdx vp))) (ptx vp))
    (s := s) rfl, if_pos huser, ite_self]
  rfl

theorem copyoutLoop_run (fuel va : Nat) (buf : List UInt8) (h : Filled k fresh s d n)
    (hin : buf.length = 0 ∨ va + buf.length ≤ pgsize * n) :
    ∃ r u, Traced.copyoutLoop d fuel va buf s = .ok (r, u) ∧ Moved d s.mem u.mem ∧
      Filled k fresh u d n := by
  induction fuel generalizing s va buf with
  | zero => exact ⟨true, s, rfl, .refl .., h⟩
  | succ fuel ih =>
      rw [Traced.copyoutLoop]
      by_cases h0 : buf.length = 0
      · rw [if_pos h0]
        exact ⟨true, s, rfl, .refl .., h⟩
      · have htop := h.space.top
        have hle := hin.resolve_left h0
        simp only [pgsize] at hle
        have hvp : va / pgsize < n := by
          simp only [pgsize]
          omega
        have hj : (ptx (va / pgsize)).val < n := by rw [ptx_user (by omega)]; exact hvp
        have hpa : pteAddr (s.mem.page (first s.mem d) (ptx (va / pgsize))) ≠ 0 :=
          (h.space.ram _ (h.space.entry hj).2.2).pos.ne'
        obtain ⟨u, hstore, hmoved, hfilled⟩ := h.store hj (va % pgsize)
          (buf.take (min (pgsize - va % pgsize) buf.length))
        have hrest : (buf.drop (min (pgsize - va % pgsize) buf.length)).length = 0 ∨
            (va / pgsize * pgsize + pgsize) % 2 ^ 32 +
              (buf.drop (min (pgsize - va % pgsize) buf.length)).length ≤ pgsize * n := by
          rw [List.length_drop]
          simp only [pgsize]
          omega
        obtain ⟨r, v, hrun, hmoved', hfilled'⟩ := ih _ _ hfilled hrest
        refine ⟨r, v, ?_, hmoved.trans hmoved', hfilled'⟩
        rw [if_neg h0, bind_of_ok (uva2ka_user h hvp), if_neg hpa, bind_of_ok hstore]
        exact hrun

theorem copyout_device (h : Filled k fresh s d n) (hbuf : 0 < buf.length) (hlo : 0xFE000000 ≤ va)
    (hhi : va < 2 ^ 32) : Traced.copyout d va buf s = .ok (false, s) := by
  obtain ⟨fuel, hfuel⟩ : ∃ fuel, buf.length = fuel + 1 := ⟨buf.length - 1, by omega⟩
  have hua := uva2ka_device h (va / pgsize) (by simp only [pgsize]; omega)
    (by simp only [pgsize]; omega)
  rw [Traced.copyout, hfuel, Traced.copyoutLoop, if_neg (by omega), bind_of_ok hua]
  rfl

/-- `copyout` below the stack pointer: what does not fit into user memory wraps around to addresses that
are not the user's. -/
theorem copyout_below (va : Nat) (buf : List UInt8) (h : Filled k fresh s d n) (hsp : sp ≤ pgsize * n)
    (hbuf : 0 < buf.length) (hva : va ≤ usub sp buf.length ∧ usub sp buf.length < va + 4)
    (hlen : buf.length ≤ 2 ^ 24) :
    ∃ r u, Traced.copyout d va buf s = .ok (r, u) ∧ Moved d s.mem u.mem ∧ Filled k fresh u d n ∧
      (r = true → va ≤ sp) := by
  have htop := h.space.top
  have hle : sp ≤ usertop := by
    simp only [pgsize, usertop] at hsp ⊢
    omega
  simp only [usertop] at hle
  unfold usub at hva
  by_cases hfit : buf.length ≤ sp
  · obtain ⟨r, u, hrun, hmoved, hfilled⟩ := copyoutLoop_run buf.length va buf h
      (.inr (by omega))
    exact ⟨r, u, hrun, hmoved, hfilled, fun _ => by omega⟩
  · refine ⟨false, s, copyout_device h hbuf (by omega) (by omega), .refl .., h, ?_⟩
    exact fun hc => absurd hc Bool.false_ne_true

theorem pushArgs_run (argc : Nat) (h : Filled k fresh s d n) (hsp : sp ≤ pgsize * n)
    (hargs : ∀ a ∈ argv, a.length < usertop) :
    ∃ r u, Traced.pushArgs d sp argc argv s = .ok (r, u) ∧ Moved d s.mem u.mem ∧ Filled k fresh u d n ∧
      ∀ sp' strings, r = some (sp', strings) → sp' ≤ pgsize * n ∧ strings.length = argv.length := by
  induction argv generalizing s sp argc with
  | nil =>
      refine ⟨some (sp, []), s, rfl, .refl .., h, ?_⟩
      intro sp' strings hr
      cases hr
      exact ⟨hsp, rfl⟩
  | cons arg argv ih =>
      rw [Traced.pushArgs]
      by_cases hcount : argc ≥ maxarg
      · rw [if_pos hcount]
        exact ⟨none, s, rfl, .refl .., h, fun _ _ hr => by cases hr⟩
      · rw [if_neg hcount]
        have hlen : (arg ++ [0]).length = arg.length + 1 := by simp
        have harg := hargs arg List.mem_cons_self
        simp only [usertop] at harg
        obtain ⟨b, u, hcopy, hmoved, hfilled, hb⟩ := copyout_below
          (usub sp (arg.length + 1) / 4 * 4) (arg ++ [0]) h hsp (by omega)
          (by rw [hlen]; omega) (by omega)
        rw [bind_of_ok hcopy]
        cases b with
        | false => exact ⟨none, u, rfl, hmoved, hfilled, fun _ _ hr => by cases hr⟩
        | true =>
            obtain ⟨r, v, hrest, hmoved', hfilled', hres⟩ := ih (argc + 1) hfilled
              ((hb rfl).trans hsp) fun a ha => hargs a (List.mem_cons_of_mem _ ha)
            cases r with
            | none =>
                refine ⟨none, v, ?_, hmoved.trans hmoved', hfilled', fun _ _ hr => by cases hr⟩
                show (Traced.pushArgs d _ _ _ >>= _) u = _
                rw [bind_of_ok hrest]
                rfl
            | some x =>
                obtain ⟨hle, hcnt⟩ := hres x.1 x.2 rfl
                refine ⟨some (x.1, usub sp (arg.length + 1) / 4 * 4 :: x.2), v, ?_, hmoved.trans hmoved',
                  hfilled', ?_⟩
                · show (Traced.pushArgs d _ _ _ >>= _) u = _
                  rw [bind_of_ok hrest]
                  rfl
                · intro sp' strings hr
                  cases hr
                  exact ⟨hle, by rw [List.length_cons, List.length_cons, hcnt]⟩

theorem length_ustack (sp : Nat) (strings : List Nat) :
    (ustack sp strings).length = (3 + strings.length + 1) * 4 := by
  have hwords : ∀ ws : List Nat, (ws.flatMap wordBytes).length = ws.length * 4 := by
    intro ws
    induction ws with
    | nil => rfl
    | cons w ws ih =>
        rw [List.flatMap_cons, List.length_append, ih, List.length_cons]
        show 4 + ws.length * 4 = _
        omega
  rw [ustack, hwords]
  simp only [List.length_append, List.length_cons, List.length_nil]

end Arguments

/-! ## The new image -/

section Image

variable {k : Link} {fresh : List Nat} {s : Loader} {d : Nat} {data : List UInt8}
variable {phdrs : List (Option Proghdr)} {argv : List (List UInt8)}

theorem buildImage_run (hsize : data.length ≤ maxfile * bsize) (h : Filled k fresh s d 0)
    (hall : AllLoadable data.length fresh.length 0 phdrs) (hcount : argv.length < maxarg)
    (hargs : ∀ a ∈ argv, a.length < usertop) :
    ∃ r u, Traced.buildImage k d (readFile data) phdrs argv s = .ok (r, u) ∧ Underway k fresh d s u ∧
      ∀ sz sp, r = some (sz, sp) → sz ≤ usertop ∧ Filled k fresh u d (pgroundup sz) := by
  obtain ⟨r₁, u₁, hload, hunder₁, hres₁⟩ := loadSegments_run 0 hsize h (Nat.zero_le _) hall
  rw [Traced.buildImage, bind_of_ok hload]
  cases r₁ with
  | none => exact ⟨none, u₁, rfl, hunder₁, fun _ _ hr => by cases hr⟩
  | some sz =>
      obtain ⟨hsz, hfilled₁⟩ := hres₁ sz rfl
      have hround : pgroundup (pgsize * pgroundup sz) = pgroundup sz := by
        simp only [pgroundup, pgsize]
        omega
      have htop₁ : pgsize * pgroundup sz ≤ usertop := by
        simp only [pgroundup, pgsize, usertop] at hsz ⊢
        omega
      rw [← hround] at hfilled₁
      obtain ⟨sz', u₂, halloc, hunder₂, -, hgood⟩ := hfilled₁.alloc htop₁ (pgsize * pgroundup sz + pgsize)
      have hunder₂' := hunder₂.after hunder₁.moved
      simp only
      rw [bind_of_ok halloc]
      by_cases h0 : sz' = 0
      · rw [if_pos h0]
        exact ⟨none, u₂, rfl, hunder₂', fun _ _ hr => by cases hr⟩
      · rw [if_neg h0]
        obtain ⟨-, htop, hfilled₂⟩ := hgood h0
        have hsp : sz' ≤ pgsize * pgroundup sz' := by
          simp only [pgroundup, pgsize]
          omega
        obtain ⟨r₃, u₃, hpush, hmoved₃, hfilled₃, hres₃⟩ := pushArgs_run 0 hfilled₂ hsp hargs
        have hunder₃ := (hfilled₃.underway hmoved₃).after hunder₂'.moved
        rw [bind_of_ok hpush]
        cases r₃ with
        | none => exact ⟨none, u₃, rfl, hunder₃, fun _ _ hr => by cases hr⟩
        | some x =>
            obtain ⟨hsp', hlen⟩ := hres₃ x.1 x.2 rfl
            have hustack := length_ustack x.1 x.2
            simp only [maxarg] at hcount
            obtain ⟨b, u₄, hcopy, hmoved₄, hfilled₄, -⟩ := copyout_below
              (usub x.1 ((3 + x.2.length + 1) * 4)) (ustack x.1 x.2) hfilled₃ hsp'
              (by omega) (by rw [hustack]; omega) (by omega)
            have hunder₄ := (hfilled₄.underway hmoved₄).after hunder₃.moved
            simp only
            rw [bind_of_ok hcopy]
            cases b with
            | false => exact ⟨none, u₄, rfl, hunder₄, fun _ _ hr => by cases hr⟩
            | true =>
                refine ⟨_, u₄, rfl, hunder₄, ?_⟩
                intro sz'' sp'' hr
                cases hr
                exact ⟨htop, hfilled₄⟩

theorem buildImage_stray (hsize : data.length ≤ maxfile * bsize) (h : Filled k fresh s d 0)
    (hall : ¬ AllLoadable data.length fresh.length 0 phdrs) {r : Option (Nat × Nat)} {u : Loader}
    (hrun : Traced.buildImage k d (readFile data) phdrs argv s = .ok (r, u)) : ¬ Sound fresh u := by
  obtain ⟨r₁, u₁, hload, hrest⟩ := bind_eq_ok hrun
  have hstray := loadSegments_stray 0 hsize h (Nat.zero_le _) hall hload
  refine Recorded.stray ?_ hstray
  -- the record of the loop over the program headers is kept to the end
  cases r₁ with
  | none =>
      cases hrest
      exact recorded_refl u
  | some sz =>
      revert hrest
      refine moves_bind recorded_trans (moves_quiet _) (fun sz' => ?_) _ _ _
      refine moves_ite (moves_pure recorded_refl none) ?_
      refine moves_bind recorded_trans pushArgs_moves ?_
      rintro (_ | ⟨sp, strings⟩)
      · exact moves_pure recorded_refl none
      · refine moves_bind recorded_trans copyoutLoop_moves fun b => ?_
        exact moves_ite (moves_pure recorded_refl _) (moves_pure recorded_refl none)

end Image

/-! ## `exec` -/

/-- The arguments that `sys_exec` accepts: their ends are in the memory of the process. -/
structure Accepted (p : Proc) (argv : List (List UInt8)) : Prop where
  count : argv.length < maxarg
  inside : ∀ a ∈ argv, a.length < p.sz

/-- An image that `exec` has built, and the memory that it is in. -/
structure Image where
  dir : Nat
  sz : Nat
  tf : Trapframe
  mem : Memory

/-- `exec` builds this image of a file under a new page directory. -/
def Builds (k : Link) (s : Task) (data : List UInt8) (argv : List (List UInt8)) (x : Image) : Prop :=
  ∃ elf m u, elfhdr data = some elf ∧ setupkvm k s.mach.mem = .ok (some x.dir, m) ∧
    Traced.buildImage k x.dir (readFile data) (proghdrs data elf) argv ⟨m, s.stores⟩ =
      .ok (some (x.sz, x.tf.esp), u) ∧ x.tf.eip = elf.entry ∧ x.mem = u.mem

/-- The new image is installed, with the user pages that have been built. -/
structure Installed (k : Link) (s : Task) (i : Fin nproc) (p : Proc) (data : List UInt8)
    (argv : List (List UInt8)) (x : Image) (t : Task) : Prop where
  built : Builds k s data argv x
  fresh : x.dir ∈ s.mach.mem.freelist
  procs : t.mach.procs = Function.update s.mach.procs i (some { p with pgdir := x.dir, sz := x.sz })
  tf : t.tf = Function.update s.tf i x.tf
  running : Running k t.mach i { p with pgdir := x.dir, sz := x.sz }
  pages : ∀ j : Fin 1024, j.val < 160 → userPage t.mach.mem x.dir j = userPage x.mem x.dir j

/-- The processes are as they were, and so are all pages that were not free. -/
structure Untouched (s t : Task) : Prop where
  procs : t.mach.procs = s.mach.procs
  tf : t.tf = s.tf
  pages : ∀ y, y ∉ s.mach.mem.freelist → t.mach.mem.page y = s.mach.mem.page y

/-- `exec` survives: it returns 0 with the new image installed or -1 with nothing changed, and it has
stored bytes in fresh user pages only. -/
def Survives (k : Link) (s : Machine) (tf : Fin nproc → Trapframe) (i : Fin nproc) (p : Proc)
    (ip : Option (List UInt8)) (argv : List (List UInt8)) : Prop :=
  ∃ r t, Traced.exec k i ip argv ⟨s, tf, []⟩ = .ok (r, t) ∧
    (∀ w ∈ t.stores, FreshUser s.mem.freelist w) ∧
    ((r = true ∧ ∃ data x, ip = some data ∧ Installed k ⟨s, tf, []⟩ i p data argv x t) ∨
      (r = false ∧ Untouched ⟨s, tf, []⟩ t))

section Replace

variable {k : Link} {m u : Memory} {d d' n : Nat} {j : Fin 1024}

theorem userPage_frame (h0 : Present (m.page d 0)) (h : ∀ y ∈ owned m d, u.page y = m.page y)
    (hj : j.val < 160) : userPage u d j = userPage m d j := by
  have hfirst : first u d = first m d := by
    unfold first
    rw [h d (dir_mem_owned m d)]
  unfold userPage
  rw [hfirst, h _ (first_mem_owned h0)]
  split
  · rename_i hp
    have hmem : pteAddr (m.page (first m d) j) ∈ users m d := by
      rw [users, if_pos h0]
      exact mem_userTargets.mpr ⟨j, hj, hp, rfl⟩
    rw [h _ (Multiset.mem_add.mpr (.inr hmem))]
  · rfl

/-- The old address space is freed, and the new one that has been made from free pages stays. -/
theorem freevm_old (hold : Tidy k m d) (hnew : NewSpace k m.freelist u d' n)
    (hframe : ∀ y, y ∉ m.freelist → u.page y = m.page y) :
    ∃ t, freevm k d u = .ok ((), t) ∧ Tidy k t d' ∧ ∀ y ∈ owned u d', t.page y = u.page y := by
  have hkept : ∀ y ∈ owned m d, u.page y = m.page y := fun y hy =>
    hframe y fun hc => free_not_owned hold.nodup hc hy
  have hall : pool u d + owned u d' = pool m d := by
    rw [pool, pool, owned_frame hkept, ← hnew.pool, pool]
    abel
  have hnd : (pool u d + owned u d').Nodup := by
    rw [hall]
    exact hold.nodup
  have hu : Tidy k u d := by
    refine ⟨(Multiset.nodup_add.mp hnd).1, ?_, ?_⟩
    · rw [hkept d (dir_mem_owned m d)]
      exact hold.dir
    · intro p hp
      refine hold.ram p ?_
      rw [← hall]
      exact Multiset.mem_add.mpr (.inl hp)
  obtain ⟨t, hrun, hback, hrest⟩ := freevm_run hu
  have hstay : ∀ y ∈ owned u d', t.page y = u.page y := fun y hy =>
    hrest y fun hc => Multiset.disjoint_left.mp (Multiset.nodup_add.mp hnd).2.2 hc hy
  have hpool : pool t d' = pool m d := by rw [pool, hback, owned_frame hstay, hall]
  refine ⟨t, hrun, ⟨?_, ?_, ?_⟩, hstay⟩
  · rw [hpool]
    exact hold.nodup
  · rw [hstay d' (dir_mem_owned u d')]
    exact hnew.space.dir
  · rw [hpool]
    exact hold.ram

end Replace

section Exec

variable {k : Link} {s : Machine} {tf : Fin nproc → Trapframe} {i : Fin nproc} {p : Proc}
variable {ip : Option (List UInt8)} {data : List UInt8} {argv : List (List UInt8)}

theorem onLoader_ok {α : Type} {s : Task} {x : Prog Loader α} {a : α} {l : Loader}
    (h : x ⟨s.mach.mem, s.stores⟩ = .ok (a, l)) : onLoader x s =
      .ok (a, { s with mach := { s.mach with mem := l.mem }, stores := l.stores }) := by
  unfold onLoader
  rw [h]

theorem onLoader_eq_ok {α : Type} {s t : Task} {x : Prog Loader α} {a : α} (h : onLoader x s = .ok (a, t)) :
    ∃ l, x ⟨s.mach.mem, s.stores⟩ = .ok (a, l) ∧
      t = { s with mach := { s.mach with mem := l.mem }, stores := l.stores } := by
  unfold onLoader at h
  split at h
  · rename_i a' l hx
    cases h
    exact ⟨l, hx, rfl⟩
  · cases h

theorem onMachine_current (tf : Fin nproc → Trapframe) (h : s.procs i = some p) :
    onMachine (current i) ⟨s, tf, []⟩ = .ok (p, ⟨s, tf, []⟩) := by
  unfold onMachine
  rw [current_ok h]

/-- `exec` where the segments can be loaded. -/
theorem exec_survives (h : Running k s i p) (hsize : data.length ≤ maxfile * bsize)
    (hargs : Accepted p argv) (hok : Harmless s.mem.freelist.length data) :
    Survives k s tf i p (some data) argv := by
  have hcur := onMachine_current tf h.proc
  have hsame : Untouched ⟨s, tf, []⟩ ⟨s, tf, []⟩ := ⟨rfl, rfl, fun _ _ => rfl⟩
  have hnone : ∀ w ∈ ([] : List Nat), FreshUser s.mem.freelist w := fun w hw => absurd hw List.not_mem_nil
  unfold Survives
  rw [Traced.exec, bind_of_ok hcur]
  cases helf : elfhdr data with
  | none =>
      simp only [helf]
      exact ⟨false, _, rfl, hnone, .inr ⟨rfl, hsame⟩⟩
  | some elf =>
      have hfree : s.mem.freelist.Nodup := by
        have hnd := h.tidy.nodup
        rw [pool] at hnd
        exact (Multiset.nodup_add.mp hnd).1
      obtain ⟨r, m, hset, hframe, hsome, hshort⟩ := setupkvm_run (k := k) hfree fun q hq =>
        h.tidy.ram q (Multiset.mem_add.mpr (.inl hq))
      simp only [helf]
      rw [bind_of_ok (onLoader_ok (s := ⟨s, tf, []⟩) (quiet_ok hset))]
      cases r with
      | none => exact ⟨false, _, rfl, hnone, .inr ⟨rfl, rfl, rfl, hframe⟩⟩
      | some d =>
          obtain ⟨hd, hspace⟩ := hsome d rfl
          have hroom : 13 ≤ s.mem.freelist.length := by
            have hlen := hspace.length_eq
            omega
          have hsz := h.size
          obtain ⟨r₂, u, hbuild, hunder, hres⟩ := buildImage_run (s := ⟨m, []⟩) hsize ⟨hspace, hnone⟩
            (hok elf helf hroom) hargs.count fun a ha => (hargs.inside a ha).trans_le hsz
          have hframe' : ∀ y, y ∉ s.mem.freelist → u.mem.page y = s.mem.page y := by
            intro y hy
            rw [hunder.moved.frame y (by rw [hspace.pool]; exact hy), hframe y hy]
          simp only
          rw [bind_of_ok (onLoader_ok (s := ⟨{ s with mem := m }, tf, []⟩) hbuild)]
          cases r₂ with
          | none =>
              obtain ⟨t, hfv, -, hrest⟩ := freevm_run hunder.tidy
              simp only
              rw [bind_of_ok (onLoader_ok (s := ⟨{ s with mem := u.mem }, tf, u.stores⟩) (quiet_ok hfv))]
              refine ⟨false, _, rfl, hunder.sound, .inr ⟨rfl, rfl, rfl, ?_⟩⟩
              intro y hy
              have hout : y ∉ pool u.mem d := by
                rw [hunder.moved.pool, hspace.pool]
                exact hy
              exact (hrest y hout).trans (hframe' y hy)
          | some x =>
              obtain ⟨htop, hfilled⟩ := hres x.1 x.2 rfl
              obtain ⟨t, hfv, htidy, hstay⟩ := freevm_old h.tidy hfilled.space hframe'
              have hcommit : Traced.commit i { p with pgdir := d, sz := x.1 } ⟨elf.entry, x.2⟩
                  ⟨{ s with mem := u.mem }, tf, u.stores⟩ =
                    .ok ((), ⟨⟨u.mem, Function.update s.procs i (some { p with pgdir := d, sz := x.1 })⟩,
                      Function.update tf i ⟨elf.entry, x.2⟩, u.stores⟩) := rfl
              simp only
              rw [bind_of_ok hcommit, bind_of_ok (onLoader_ok (quiet_ok hfv))]
              have hpages : ∀ j : Fin 1024, j.val < 160 → userPage t d j = userPage u.mem d j :=
                fun j hj => userPage_frame hfilled.space.space.dir hstay hj
              refine ⟨true, _, rfl, hunder.sound, .inl ⟨rfl, data, ⟨d, x.1, ⟨elf.entry, x.2⟩, u.mem⟩, rfl,
                ⟨elf, m, u, helf, hset, hbuild, rfl, rfl⟩, hd, rfl, rfl,
                ⟨Function.update_self .., htidy, htop, ?_⟩, hpages⟩⟩
              intro j hj
              show userPage t d j ≠ none ↔ _
              rw [hpages j hj, ne_eq, userPage_eq_none, not_not]
              exact hfilled.space.space.user j hj

/-- `exec` where a segment cannot be loaded. -/
theorem exec_stray (h : Running k s i p) (hsize : data.length ≤ maxfile * bsize)
    (hbad : ¬ Harmless s.mem.freelist.length data) : ¬ Survives k s tf i p (some data) argv := by
  rintro ⟨r, t, hrun, hsound, -⟩
  refine hbad fun elf helf hroom => ?_
  by_contra hall
  rw [Traced.exec, bind_of_ok (onMachine_current tf h.proc)] at hrun
  simp only [helf] at hrun
  have hfree : s.mem.freelist.Nodup := by
    have hnd := h.tidy.nodup
    rw [pool] at hnd
    exact (Multiset.nodup_add.mp hnd).1
  obtain ⟨a, m, hset, -, hsome, hshort⟩ := setupkvm_run (k := k) hfree fun q hq =>
    h.tidy.ram q (Multiset.mem_add.mpr (.inl hq))
  rw [bind_of_ok (onLoader_ok (s := ⟨s, tf, []⟩) (quiet_ok hset))] at hrun
  cases a with
  | none =>
      have hle := hshort rfl
      omega
  | some d =>
      obtain ⟨-, hspace⟩ := hsome d rfl
      simp only at hrun
      obtain ⟨b, v, hbuild, hrest⟩ := bind_eq_ok hrun
      obtain ⟨u, hbuild, hv⟩ := onLoader_eq_ok hbuild
      have hstray := buildImage_stray (s := ⟨m, []⟩) hsize
        ⟨hspace, fun w hw => absurd hw List.not_mem_nil⟩ hall hbuild
      -- what follows stores no more bytes
      have hstores : t.stores = u.stores := by
        rw [hv] at hrest
        cases b with
        | none =>
            obtain ⟨_, t', hfv, hret⟩ := bind_eq_ok hrest
            obtain ⟨l, hl, ht'⟩ := onLoader_eq_ok hfv
            cases hret
            rw [ht']
            unfold quiet at hl
            split at hl
            · cases hl
              rfl
            · cases hl
        | some x =>
            obtain ⟨_, t₁, hcommit, hrest⟩ := bind_eq_ok hrest
            have ht₁ := assign_eq_ok hcommit
            obtain ⟨_, t', hfv, hret⟩ := bind_eq_ok hrest
            obtain ⟨l, hl, ht'⟩ := onLoader_eq_ok hfv
            cases hret
            rw [ht₁] at hl
            rw [ht']
            unfold quiet at hl
            split at hl
            · cases hl
              rfl
            · cases hl
      refine hstray fun w hw => hsound w ?_
      rw [hstores]
      exact hw

/-- **`exec` of an arbitrary file.**  It survives exactly the files whose segments can be loaded, as far as
it gets to them. -/
theorem exec_survives_iff (h : Running k s i p) (tf : Fin nproc → Trapframe)
    (hsize : ∀ data, ip = some data → data.length ≤ maxfile * bsize) (hargs : Accepted p argv) :
    Survives k s tf i p ip argv ↔
      ∀ data, ip = some data → Harmless s.mem.freelist.length data := by
  cases ip with
  | none =>
      refine iff_of_true ?_ fun data hc => by cases hc
      unfold Survives
      rw [Traced.exec, bind_of_ok (onMachine_current tf h.proc)]
      exact ⟨false, _, rfl, fun w hw => absurd hw List.not_mem_nil, .inr ⟨rfl, rfl, rfl, fun _ _ => rfl⟩⟩
  | some data =>
      have hdata := hsize data rfl
      constructor
      · rintro hsurv data' hd
        cases hd
        by_contra hc
        exact exec_stray h hdata hc hsurv
      · intro hok
        exact exec_survives h hdata hargs (hok data rfl)

end Exec

/-! ## Ordinary files -/

section Contained

variable {k : Link} {s : Machine} {i : Fin nproc} {p : Proc} {ph : Proghdr} {size room sz : Nat}
variable {data : List UInt8} {argv : List (List UInt8)}

theorem loadable_of_contained (halign : ph.va.toNat % pgsize = 0)
    (hcont : ph.va.toNat + ph.memsz.toNat < 2 ^ 32) (hadm : Admitted room sz ph) :
    Loadable size (pgroundup (grownSize sz ph)) ph := by
  obtain ⟨-, hfile, htop, -⟩ := hadm
  have hfile' : ph.filesz.toNat ≤ ph.memsz.toNat := UInt32.le_iff_toNat_le.mp hfile
  have hsum : (ph.va + ph.memsz).toNat = ph.va.toNat + ph.memsz.toNat := by
    rw [UInt32.toNat_add]
    exact Nat.mod_eq_of_lt hcont
  have hgrown : (ph.va + ph.memsz).toNat ≤ grownSize sz ph := le_max_left _ _
  refine ⟨halign, fun t _ hlt _ => ?_⟩
  have hround : segPage ph.va.toNat t < pgroundup (ph.va + ph.memsz).toNat := by
    simp only [pgroundup] at hlt ⊢
    simp only [segPage, pgsize]
    omega
  unfold TurnSafe
  split
  · exact hround.trans_le (pgroundup_mono hgrown)
  · have huser := hround.trans_le (pgroundup_le htop)
    rw [pdx_user huser, mem_kernelTables]
    exact .inl (Nat.zero_le _)

theorem allLoadable_of_contained {phdrs : List (Option Proghdr)}
    (h : ∀ ph, some ph ∈ phdrs → ph.Contained ∧ (ph.type = elfProgLoad → ph.va.toNat % pgsize = 0)) :
    AllLoadable size room sz phdrs := by
  induction phdrs generalizing sz with
  | nil => trivial
  | cons x phdrs ih =>
      have hrest := fun ph hph => h ph (List.mem_cons_of_mem _ hph)
      cases x with
      | none => trivial
      | some ph =>
          obtain ⟨hcont, halign⟩ := h ph List.mem_cons_self
          refine ⟨fun _ => ih hrest, fun hadm => ⟨?_, fun _ => ih hrest⟩⟩
          exact loadable_of_contained (halign hadm.1) (hcont hadm.1) hadm

/-- `exec` survives a file whose segments start at page boundaries and do not wrap around. -/
theorem exec_survives_contained (h : Running k s i p) (tf : Fin nproc → Trapframe)
    (hsize : data.length ≤ maxfile * bsize) (hargs : Accepted p argv)
    (hin : ∀ elf, elfhdr data = some elf → ∀ ph, some ph ∈ proghdrs data elf →
      ph.Contained ∧ (ph.type = elfProgLoad → ph.va.toNat % pgsize = 0)) :
    Survives k s tf i p (some data) argv :=
  exec_survives h hsize hargs fun elf helf _ => allLoadable_of_contained (hin elf helf)

end Contained

/-- An executable with a segment of one byte at the address `va`. -/
def elfFile (va : UInt8) : List UInt8 :=
  [0x7F, 0x45, 0x4C, 0x46] ++ List.replicate 24 0 ++ [52, 0, 0, 0] ++ List.replicate 12 0 ++ [1, 0] ++
    List.replicate 6 0 ++ [1, 0, 0, 0] ++ List.replicate 4 0 ++ [va, 0, 0, 0] ++ List.replicate 4 0 ++
    [1, 0, 0, 0] ++ [1, 0, 0, 0] ++ List.replicate 8 0

theorem elfhdr_elfFile : ∀ va ∈ [0, 1], elfhdr (elfFile va) = some ⟨elfMagic, 0, 52, 1⟩ := by
  decide +kernel

theorem proghdrs_elfFile : ∀ va ∈ [0, 1], proghdrs (elfFile va) ⟨elfMagic, 0, 52, 1⟩ =
    [some ⟨1, 0, va.toUInt32, 1, 1⟩] := by
  decide +kernel

theorem smallMachine_twenty :
    Running smallLink (smallMachine (List.range' 3000 20)) ⟨0, by decide⟩ ⟨2000, 2001, 4096⟩ := by
  refine smallMachine_running (by decide) ?_
  intro p hp
  obtain ⟨hlo, hhi⟩ := List.mem_range'_1.mp hp
  exact ⟨by omega, (by decide : smallLink.stop ≤ 3000).trans hlo, hhi.trans_le (by decide)⟩

/-- The executable with its byte at address 0 is installed. -/
theorem exec_survives_iff_aligned :
    Survives smallLink (smallMachine (List.range' 3000 20)) (fun _ => ⟨0, 0⟩) ⟨0, by decide⟩
      ⟨2000, 2001, 4096⟩ (some (elfFile 0)) [] := by
  refine (exec_survives_iff smallMachine_twenty (fun _ => ⟨0, 0⟩) ?_ ⟨by decide, by simp⟩).mpr ?_
  · rintro data hd
    cases hd
    decide
  · rintro data hd elf helf -
    cases hd
    rw [elfhdr_elfFile 0 (by decide)] at helf
    cases helf
    rw [proghdrs_elfFile 0 (by decide)]
    refine allLoadable_of_contained ?_
    intro ph hph
    cases List.mem_singleton.mp hph
    exact ⟨fun _ => by decide, fun _ => by decide⟩

/-- The executable with its byte at address 1 makes `loaduvm` panic. -/
theorem not_exec_survives : ¬ ∀ (k : Link) (s : Machine) (tf : Fin nproc → Trapframe) (i : Fin nproc)
    (p : Proc) (ip : Option (List UInt8)) (argv : List (List UInt8)), Running k s i p →
      (∀ data, ip = some data → data.length ≤ maxfile * bsize) → Accepted p argv →
        Survives k s tf i p ip argv := by
  intro hclaim
  have hsurv := hclaim smallLink (smallMachine (List.range' 3000 20)) (fun _ => ⟨0, 0⟩) ⟨0, by decide⟩
    ⟨2000, 2001, 4096⟩ (some (elfFile 1)) [] smallMachine_twenty (by rintro data hd; cases hd; decide)
    ⟨by decide, by simp⟩
  refine exec_stray smallMachine_twenty (by decide) (fun hharm => ?_) hsurv
  have hall := hharm _ (elfhdr_elfFile 1 (by decide)) (by decide)
  rw [proghdrs_elfFile 1 (by decide)] at hall
  have hload := (hall.2 ⟨rfl, by decide, by decide, by decide, by decide⟩).1
  exact absurd hload.1 (by decide)

end Vm
end Xv6
end LfsXv6
