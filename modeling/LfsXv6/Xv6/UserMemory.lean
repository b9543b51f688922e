import LfsXv6.Xv6.Contents
import LfsXv6.Xv6.Pipe

/-!
# UserMemory — the buffers of `read` and `write`

The arguments of a system call are words on the user stack.  `argptr` checks that a buffer lies in the
memory of the process; `fileread` and `filewrite` hand it on to `readi`, `writei`, the console or a
pipe, which move bytes to it or from it.  What is followed here is which bytes of the buffer they touch.
-/

namespace LfsXv6
namespace Xv6

open Lib Prog

/-- `USERTOP` -/
def usertop : UInt32 := 0xA0000

/-- `NOFILE` -/
abbrev nofile : Nat := 16

instance neZeroFiles : NeZero 16 := ⟨by decide⟩

/-- `CONSOLE` -/
def console : Int16 := 1

/-- What a `struct file` refers to: `FD_NONE`, `FD_PIPE`, or `FD_INODE` with its locked inode. -/
inductive FileKind where
  | none
  | pipe
  | inode (ip : Inode)

structure File where
  kind : FileKind
  readable : Bool
  writable : Bool
  off : UInt32

/-- What the system calls see of the current process: its size, `tf->esp`, its memory and its open
files. -/
structure Process where
  sz : UInt32
  esp : UInt32
  mem : UInt32 → UInt8
  ofile : Fin nofile → Option File

namespace Process

variable (p : Process)

/-- The word at an address. -/
def word (addr : UInt32) : UInt32 :=
  (p.mem addr).toUInt32 ||| (p.mem (addr + 1)).toUInt32 <<< 8 |||
    (p.mem (addr + 2)).toUInt32 <<< 16 ||| (p.mem (addr + 3)).toUInt32 <<< 24

/-- `fetchint` -/
def fetchint (addr : UInt32) : Option Int32 :=
  if addr ≥ p.sz ∨ addr + 4 > p.sz then none else some (p.word addr).toInt32

/-- `argint` -/
def argint (n : UInt32) : Option Int32 := p.fetchint (p.esp + 4 + 4 * n)

/-- `argptr`.  The sum is one of `uint`s. -/
def argptr (n : UInt32) (size : Int32) : Option UInt32 :=
  match p.argint n with
  | none => none
  | some i =>
      if i.toUInt32 ≥ p.sz ∨ i.toUInt32 + size.toUInt32 > p.sz then none else some i.toUInt32

/-- `argfd` -/
def argfd (n : UInt32) : Option File :=
  match p.argint n with
  | none => none
  | some fd => if fd < 0 ∨ fd ≥ 16 then none else p.ofile (Fin.ofNat nofile fd.toInt.toNat)

/-- The checks of `sys_read` and of `sys_write`: the file, the buffer and its length. -/
def rwArgs : Option (File × UInt32 × Int32) :=
  match p.argfd 0, p.argint 2 with
  | some f, some n =>
      match p.argptr 1 n with
      | some addr => some (f, addr, n)
      | none => none
  | _, _ => none

end Process

/-! ## The bytes that are moved -/

/-- The loop of `readi` reaches the `memmove` of the piece at `o`, of `m` bytes. -/
inductive ReadiMoves : Inode → List (Nat × Nat) → Bufs → Nat → Nat → Prop where
  | here {ip ip' : Inode} {o m : Nat} {ps : List (Nat × Nat)} {s s' t : Bufs} {addr : UInt32}
      {data : Sector} : bmap ip (o / bsize) s = .ok ((addr, ip'), s') →
      bread addr.toNat s' = .ok (data, t) → ReadiMoves ip ((o, m) :: ps) s o m
  | there {ip ip' : Inode} {r : Nat × Nat} {o m : Nat} {ps : List (Nat × Nat)} {s s' : Bufs}
      {out : List UInt8} : readiLoop ip [r] s = .ok (((true, out), ip'), s') →
      ReadiMoves ip' ps s' o m → ReadiMoves ip (r :: ps) s o m

/-- The loop of `writei` reaches the `memmove` of the piece at `o`, of `m` bytes. -/
inductive WriteiMoves : Inode → List (Nat × Nat) → List UInt8 → Bufs → Nat → Nat → Prop where
  | here {ip ip' : Inode} {o m : Nat} {ps : List (Nat × Nat)} {src : List UInt8} {s s' t : Bufs}
      {addr : UInt32} {data : Sector} : bmap ip (o / bsize) s = .ok ((addr, ip'), s') →
      bread addr.toNat s' = .ok (data, t) → WriteiMoves ip ((o, m) :: ps) src s o m
  | there {ip ip' : Inode} {r : Nat × Nat} {o m : Nat} {ps : List (Nat × Nat)} {src : List UInt8}
      {s s' : Bufs} : writeiLoop ip [r] src s = .ok (ip', s') →
      WriteiMoves ip' ps (src.drop r.2) s' o m → WriteiMoves ip (r :: ps) src s o m

/-- `readi` and `writei` return -1 before their loop. -/
def RefusedAt (ip : Inode) (off n : UInt32) : Prop := off > ip.size ∨ off + n < off

instance (ip : Inode) (off n : UInt32) : Decidable (RefusedAt ip off n) :=
  inferInstanceAs (Decidable (_ ∨ _))

/-- The count of `readi` after its check against the size. -/
def readClip (ip : Inode) (off n : UInt32) : UInt32 := if off + n > ip.size then ip.size - off else n

/-- The loop of `consoleread` on the characters as they arrive: the characters stored. -/
def consoleread : Nat → List UInt8 → List UInt8
  | 0, _ => []
  | _ + 1, [] => []
  | todo + 1, c :: cs =>
      if c = 4 then []
      else if c = 10 then [c]
      else c :: consoleread todo cs

/-- `consolewrite`: the characters put out. -/
def consolewrite (buf : Nat → UInt8) (n : Int32) : List UInt8 := (List.range n.toInt.toNat).map buf

/-- Byte `k` of the buffer is stored to by `fileread(f, addr, n)`, from the buffers `s`. -/
def File.ReadTouches (f : File) (s : Bufs) (n : Int32) (k : Nat) : Prop :=
  f.readable = true ∧
    match f.kind with
    | .none => False
    | .pipe => ∃ p killed, k < (piperead p n killed).2.1.length
    | .inode ip =>
        if ip.type = tDev then
          ip.major = console ∧ ∃ input, k < (consoleread n.toInt.toNat input).length
        else
          ¬ RefusedAt ip f.off n.toUInt32 ∧
            ∃ o m, ReadiMoves ip (pieces (readClip ip f.off n.toUInt32).toNat f.off.toNat
              (readClip ip f.off n.toUInt32).toNat) s o m ∧
              o ≤ f.off.toNat + k ∧ f.off.toNat + k < o + m

/-- Byte `k` of the buffer `buf` is loaded by `filewrite(f, addr, n)`, from the buffers `s`. -/
def File.WriteTouches (f : File) (s : Bufs) (buf : Nat → UInt8) (n : Int32) (k : Nat) : Prop :=
  f.writable = true ∧
    match f.kind with
    | .none => False
    | .pipe => ∃ p i killed, i ≤ k ∧ k < (pipewrite p buf n i killed).2.1
    | .inode ip =>
        if ip.type = tDev then ip.major = console ∧ k < (consolewrite buf n).length
        else
          ¬ RefusedAt ip f.off n.toUInt32 ∧
            ∃ o m, WriteiMoves ip (pieces (writeCount f.off n.toUInt32).toNat f.off.toNat
              (writeCount f.off n.toUInt32).toNat)
              ((List.range (writeCount f.off n.toUInt32).toNat).map buf) s o m ∧
              o ≤ f.off.toNat + k ∧ f.off.toNat + k < o + m

/-! ## How far the moves go -/

section Moves

variable {ip ip' : Inode} {ps : List (Nat × Nat)} {src : List UInt8} {s t : Bufs} {o m : Nat}
variable {r : Nat × Nat} {out : List UInt8}

theorem ReadiMoves.mem (h : ReadiMoves ip ps s o m) : (o, m) ∈ ps := by
  induction h with
  | here _ _ => exact List.mem_cons_self
  | there _ _ ih => exact List.mem_cons_of_mem _ ih

theorem WriteiMoves.mem (h : WriteiMoves ip ps src s o m) : (o, m) ∈ ps := by
  induction h with
  | here _ _ => exact List.mem_cons_self
  | there _ _ ih => exact List.mem_cons_of_mem _ ih

/-- A block number that `bmap` accepts is one of a file. -/
theorem bmap_lt {bn : Nat} {r : UInt32 × Inode} (h : bmap ip bn s = .ok (r, t)) : bn < maxfile := by
  unfold bmap at h
  split at h
  · rename_i hd
    simp only [ndirect, maxfile] at hd ⊢
    omega
  · split at h
    · rename_i hi
      simp only [ndirect, nindirect, maxfile] at hi ⊢
      omega
    · cases h

theorem WriteiMoves.lt_maxfile (h : WriteiMoves ip ps src s o m) : o / bsize < maxfile := by
  induction h with
  | here hb _ => exact bmap_lt hb
  | there _ _ ih => exact ih

/-- A turn of the loop of `readi` that goes on: it has moved its piece, and the rest follows. -/
theorem readiLoop_cons_eq_ok (h : readiLoop ip ((o, m) :: ps) s = .ok (((true, out), ip'), t)) :
    (∃ addr ip₁ s₁ data s₂, bmap ip (o / bsize) s = .ok ((addr, ip₁), s₁) ∧
      bread addr.toNat s₁ = .ok (data, s₂)) ∧
    ∃ out₁ ip₁ s₁ out₂, readiLoop ip [(o, m)] s = .ok (((true, out₁), ip₁), s₁) ∧
      readiLoop ip₁ ps s₁ = .ok (((true, out₂), ip'), t) := by
  rw [readiLoop] at h
  obtain ⟨⟨addr, ip₁⟩, s₁, hbmap, h⟩ := bind_eq_ok h
  obtain ⟨data, s₂, hread, h⟩ := bind_eq_ok h
  obtain ⟨_, s₃, hrel, h⟩ := bind_eq_ok h
  refine ⟨⟨addr, ip₁, s₁, data, s₂, hbmap, hread⟩, ?_⟩
  -- in both branches the single turn runs through the same steps
  simp only at h
  split at h
  · rename_i hchecked
    obtain ⟨⟨addr', ip₂⟩, s₄, hbmap', h⟩ := bind_eq_ok h
    obtain ⟨data', s₅, hread', h⟩ := bind_eq_ok h
    obtain ⟨_, s₆, hrel', h⟩ := bind_eq_ok h
    obtain ⟨stored, s₇, hstored, h⟩ := bind_eq_ok h
    split at h
    · cases h
    · rename_i hsame
      obtain ⟨⟨⟨good, rest⟩, ip₃⟩, s₈, hrest, h⟩ := bind_eq_ok h
      simp only [pure_apply, Except.ok.injEq, Prod.mk.injEq] at h
      obtain ⟨⟨⟨rfl, -⟩, rfl⟩, rfl⟩ := h
      refine ⟨data.slice (o % bsize) m ++ [], ip₂, s₇, rest, ?_, hrest⟩
      rw [readiLoop, bind_of_ok hbmap]
      simp only
      rw [bind_of_ok hread, bind_of_ok hrel, if_pos hchecked, bind_of_ok hbmap']
      simp only
      rw [bind_of_ok hread', bind_of_ok hrel', bind_of_ok hstored, if_neg hsame]
      rfl
  · rename_i hplain
    obtain ⟨⟨⟨good, rest⟩, ip₃⟩, s₄, hrest, h⟩ := bind_eq_ok h
    simp only [pure_apply, Except.ok.injEq, Prod.mk.injEq] at h
    obtain ⟨⟨⟨rfl, -⟩, rfl⟩, rfl⟩ := h
    refine ⟨data.slice (o % bsize) m ++ [], ip₁, s₃, rest, ?_, hrest⟩
    rw [readiLoop, bind_of_ok hbmap]
    simp only
    rw [bind_of_ok hread, bind_of_ok hrel, if_neg hplain]
    rfl

theorem writeiLoop_cons_eq_ok (h : writeiLoop ip ((o, m) :: ps) src s = .ok (ip', t)) :
    (∃ addr ip₁ s₁ data s₂, bmap ip (o / bsize) s = .ok ((addr, ip₁), s₁) ∧
      bread addr.toNat s₁ = .ok (data, s₂)) ∧
    ∃ ip₁ s₁, writeiLoop ip [(o, m)] src s = .ok (ip₁, s₁) ∧
      writeiLoop ip₁ ps (src.drop m) s₁ = .ok (ip', t) := by
  rw [writeiLoop] at h
  obtain ⟨⟨addr, ip₁⟩, s₁, hbmap, h⟩ := bind_eq_ok h
  obtain ⟨data, s₂, hread, h⟩ := bind_eq_ok h
  obtain ⟨_, s₃, hwrite, h⟩ := bind_eq_ok h
  obtain ⟨_, s₄, hrel, h⟩ := bind_eq_ok h
  obtain ⟨ip₂, s₅, hcheck, h⟩ := bind_eq_ok h
  refine ⟨⟨addr, ip₁, s₁, data, s₂, hbmap, hread⟩, ip₂, s₅, ?_, h⟩
  rw [writeiLoop, bind_of_ok hbmap]
  simp only
  rw [bind_of_ok hread, bind_of_ok hwrite, bind_of_ok hrel, bind_of_ok hcheck]
  rfl

/-- A loop that runs to its end moves all its pieces. -/
theorem readiMoves_of_ok (h : readiLoop ip ps s = .ok (((true, out), ip'), t)) (hr : r ∈ ps) :
    ReadiMoves ip ps s r.1 r.2 := by
  induction ps generalizing ip s out with
  | nil => cases hr
  | cons q ps ih =>
      obtain ⟨o, m⟩ := q
      obtain ⟨⟨addr, ip₁, s₁, data, s₂, hbmap, hread⟩, out₁, ip₂, s₃, out₂, hturn, hrest⟩ :=
        readiLoop_cons_eq_ok h
      rcases List.mem_cons.mp hr with rfl | hr
      · exact .here hbmap hread
      · exact .there hturn (ih hrest hr)

theorem writeiMoves_of_ok (h : writeiLoop ip ps src s = .ok (ip', t)) (hr : r ∈ ps) :
    WriteiMoves ip ps src s r.1 r.2 := by
  induction ps generalizing ip s src with
  | nil => cases hr
  | cons q ps ih =>
      obtain ⟨o, m⟩ := q
      obtain ⟨⟨addr, ip₁, s₁, data, s₂, hbmap, hread⟩, ip₂, s₃, hturn, hrest⟩ :=
        writeiLoop_cons_eq_ok h
      rcases List.mem_cons.mp hr with rfl | hr
      · exact .here hbmap hread
      · exact .there hturn (ih hrest hr)

/-- The pieces cover the range. -/
theorem exists_piece {fuel off n k : Nat} (hfuel : n ≤ fuel) (hk : k < n) :
    ∃ r ∈ pieces fuel off n, r.1 ≤ off + k ∧ off + k < r.1 + r.2 := by
  induction fuel generalizing off n k with
  | zero => omega
  | succ fuel ih =>
      have hmod : off % bsize < bsize := Nat.mod_lt _ (by decide)
      rw [pieces, if_neg (by omega)]
      by_cases hfirst : k < min n (bsize - off % bsize)
      · exact ⟨_, List.mem_cons_self, Nat.le_add_right off k, by simp only; omega⟩
      · obtain ⟨r, hr, hle, hlt⟩ :=
          @ih (off + min n (bsize - off % bsize)) (n - min n (bsize - off % bsize))
            (k - min n (bsize - off % bsize)) (by omega) (by omega)
        exact ⟨r, List.mem_cons_of_mem _ hr, by omega, by omega⟩

theorem consoleread_length_le (todo : Nat) (input : List UInt8) :
    (consoleread todo input).length ≤ todo := by
  fun_induction consoleread todo input with
  | case1 => exact Nat.le_refl 0
  | case2 => exact Nat.zero_le _
  | case3 => exact Nat.zero_le _
  | case4 => simp
  | case5 todo c cs _ _ ih => simpa using ih

theorem pipereadLoop_length_le (todo : Nat) (p : Pipe) : (pipereadLoop todo p).1.length ≤ todo := by
  induction todo generalizing p with
  | zero => exact Nat.le_refl 0
  | succ todo ih =>
      rw [pipereadLoop]
      split
      · exact Nat.zero_le _
      · simpa using ih _

theorem piperead_length_le (p : Pipe) (n : Int32) (killed : Bool) :
    (piperead p n killed).2.1.length ≤ n.toInt.toNat := by
  unfold piperead
  split
  · split <;> exact Nat.zero_le _
  · exact pipereadLoop_length_le _ p

theorem pipewriteLoop_le (buf : Nat → UInt8) (n : Int32) (killed : Bool) (todo i : Nat) (p : Pipe) :
    (pipewriteLoop buf n killed todo i p).2.1 ≤ i + todo := by
  induction todo generalizing i p with
  | zero => exact Nat.le_refl i
  | succ todo ih =>
      rw [pipewriteLoop]
      split
      · split <;> exact Nat.le_add_right i _
      · have := ih (i + 1) (p.put (buf i))
        omega

end Moves

/-! ## The checks -/

section Checks

variable {p : Process} {f : File} {ip : Inode} {sz addr off c : UInt32} {n : Int32} {s : Bufs} {k : Nat}

theorem toUInt32_toNat (h : 0 ≤ n) : n.toUInt32.toNat = n.toInt.toNat :=
  Int32.toNat_toUInt32_of_le h

theorem rwArgs_eq_some (h : p.rwArgs = some (f, addr, n)) :
    addr < p.sz ∧ addr + n.toUInt32 ≤ p.sz := by
  unfold Process.rwArgs at h
  split at h
  · rename_i f' n' hf hn
    split at h
    · rename_i addr' hptr
      cases h
      unfold Process.argptr at hptr
      split at hptr
      · cases hptr
      · split at hptr
        · cases hptr
        · rename_i i _ hcheck
          cases hptr
          rw [not_or] at hcheck
          exact ⟨UInt32.not_le.mp hcheck.1, UInt32.not_lt.mp hcheck.2⟩
    · cases h
  · cases h

/-- For a length that is not negative the check of `argptr` is what it should be. -/
theorem fits_of_nonneg (hsz : p.sz ≤ usertop) (h : p.rwArgs = some (f, addr, n)) (hn : 0 ≤ n) :
    addr.toNat + n.toInt.toNat ≤ p.sz.toNat := by
  obtain ⟨hlt, hle⟩ := rwArgs_eq_some h
  rw [UInt32.lt_iff_toNat_lt] at hlt
  rw [UInt32.le_iff_toNat_le] at hsz
  rw [UInt32.le_iff_toNat_le, UInt32.toNat_add, toUInt32_toNat hn] at hle
  have htop : usertop.toNat = 0xA0000 := rfl
  have hmax : n.toInt < 2 ^ 31 := Int32.toInt_lt n
  rw [Nat.mod_eq_of_lt (by omega)] at hle
  exact hle

theorem inside_of_lt {b : Nat} (h : addr.toNat + b ≤ sz.toNat) (hk : k < b) :
    addr + UInt32.ofNat k < sz := by
  have hmax := sz.toNat_lt
  rw [UInt32.lt_iff_toNat_lt, UInt32.toNat_add, UInt32.toNat_ofNat', Nat.mod_eq_of_lt (by omega),
    Nat.mod_eq_of_lt (by omega)]
  omega

/-- The first byte behind the memory of the process. -/
theorem not_inside (h : addr < sz) : ¬ addr + UInt32.ofNat (sz.toNat - addr.toNat) < sz := by
  rw [UInt32.lt_iff_toNat_lt] at h
  have hmax := sz.toNat_lt
  rw [UInt32.lt_iff_toNat_lt, UInt32.toNat_add, UInt32.toNat_ofNat', Nat.mod_eq_of_lt (by omega),
    Nat.mod_eq_of_lt (by omega)]
  omega

theorem readClip_le (h : ¬ RefusedAt ip off c) : (readClip ip off c).toNat ≤ c.toNat := by
  rw [RefusedAt, not_or, gt_iff_lt, UInt32.not_lt, UInt32.not_lt, UInt32.le_iff_toNat_le,
    UInt32.le_iff_toNat_le] at h
  unfold readClip
  split
  · rename_i hover
    rw [gt_iff_lt, UInt32.lt_iff_toNat_lt] at hover
    have hadd := UInt32.toNat_add off c
    have hoff := off.toNat_lt
    have hc := c.toNat_lt
    rw [UInt32.toNat_sub_of_le _ _ (UInt32.le_iff_toNat_le.mpr h.1)]
    omega
  · exact Nat.le_refl _

/-- How many bytes `writei` takes from the buffer: no block lies behind the largest size. -/
def writeTaken (off c : UInt32) : Nat := if off + c > 71680 then 71680 - off.toNat else c.toNat

theorem writeTaken_le (off c : UInt32) : writeTaken off c ≤ c.toNat := by
  unfold writeTaken
  split
  · rename_i hover
    rw [gt_iff_lt, UInt32.lt_iff_toNat_lt] at hover
    have hadd := UInt32.toNat_add off c
    have hoff := off.toNat_lt
    have hc := c.toNat_lt
    have hmax : (71680 : UInt32).toNat = 71680 := rfl
    omega
  · exact Nat.le_refl _

end Checks

/-! ## Which calls stay inside -/

/-- When `fileread` stays inside: the length is not negative, or nothing is stored for a negative one,
or the rest of the file, to which the length is clipped then, fits behind `addr`. -/
def File.ReadFits (f : File) (sz addr : UInt32) (n : Int32) : Prop :=
  0 ≤ n ∨ f.readable = false ∨
    match f.kind with
    | .inode ip =>
        ip.type = tDev ∨ RefusedAt ip f.off n.toUInt32 ∨
          addr.toNat + (readClip ip f.off n.toUInt32).toNat ≤ sz.toNat
    | _ => True

/-- The same for `filewrite`, which clips the length to the largest size of a file. -/
def File.WriteFits (f : File) (sz addr : UInt32) (n : Int32) : Prop :=
  0 ≤ n ∨ f.writable = false ∨
    match f.kind with
    | .inode ip =>
        ip.type = tDev ∨ RefusedAt ip f.off n.toUInt32 ∨
          addr.toNat + writeTaken f.off n.toUInt32 ≤ sz.toNat
    | _ => True

/-- `readi` runs to its end on the inode of the file. -/
def File.Reads (f : File) (dev : Devsw) (s : Bufs) (n : Int32) : Prop :=
  ∀ ip, f.kind = .inode ip → ∃ r out ip' t,
    readi dev ip f.off n.toUInt32 s = .ok (((r, out), ip'), t) ∧ r ≠ -1

/-- `writei` runs to its end on the inode of the file. -/
def File.Writes (f : File) (dev : Devsw) (s : Bufs) (buf : Nat → UInt8) (n : Int32) : Prop :=
  ∀ ip, f.kind = .inode ip → ∃ r ip' t,
    writei dev ip ((List.range (writeCount f.off n.toUInt32).toNat).map buf) f.off n.toUInt32 s =
      .ok ((r, ip'), t) ∧ r ≠ -1

section Inside

variable {p : Process} {f : File} {ip : Inode} {sz addr off c : UInt32} {n : Int32} {s : Bufs} {k : Nat}
variable {buf : Nat → UInt8}

theorem ReadiMoves.lt {o m : Nat} (h : ReadiMoves ip (pieces c.toNat off.toNat c.toNat) s o m)
    (hk : off.toNat + k < o + m) : k < c.toNat := by
  have hmem := mem_pieces h.mem
  simp only at hmem
  omega

theorem WriteiMoves.lt {o m : Nat} {src : List UInt8}
    (h : WriteiMoves ip (pieces (writeCount off c).toNat off.toNat (writeCount off c).toNat) src s o m)
    (hk : off.toNat + k < o + m) : k < writeTaken off c := by
  have hmem := mem_pieces h.mem
  have hlt := h.lt_maxfile
  simp only [bsize, maxfile] at hmem hlt
  unfold writeCount at hmem
  unfold writeTaken
  split at hmem
  · rename_i hover
    rw [if_pos hover]
    omega
  · rename_i hfits
    rw [if_neg hfits]
    omega

/-- What `fileread` touches lies below the length, or is part of the clipped rest of a file. -/
theorem File.ReadTouches.lt (h : f.ReadTouches s n k) :
    k < n.toInt.toNat ∨ ∃ ip, f.kind = .inode ip ∧ ip.type ≠ tDev ∧
      ¬ RefusedAt ip f.off n.toUInt32 ∧ k < (readClip ip f.off n.toUInt32).toNat := by
  obtain ⟨-, h⟩ := h
  cases hkind : f.kind with
  | none => simp only [hkind] at h
  | pipe =>
      simp only [hkind] at h
      obtain ⟨q, killed, hk⟩ := h
      have := piperead_length_le q n killed
      exact Or.inl (by omega)
  | inode ip =>
      simp only [hkind] at h
      split at h
      · obtain ⟨-, input, hk⟩ := h
        have := consoleread_length_le n.toInt.toNat input
        exact Or.inl (by omega)
      · rename_i htype
        obtain ⟨hgo, o, m, hmoves, -, hk⟩ := h
        exact Or.inr ⟨ip, rfl, htype, hgo, hmoves.lt hk⟩

theorem File.WriteTouches.lt (h : f.WriteTouches s buf n k) :
    k < n.toInt.toNat ∨ ∃ ip, f.kind = .inode ip ∧ ip.type ≠ tDev ∧
      ¬ RefusedAt ip f.off n.toUInt32 ∧ k < writeTaken f.off n.toUInt32 := by
  obtain ⟨-, h⟩ := h
  cases hkind : f.kind with
  | none => simp only [hkind] at h
  | pipe =>
      simp only [hkind] at h
      obtain ⟨q, i, killed, hik, hk⟩ := h
      have : _ ≤ i + (n.toInt.toNat - i) := pipewriteLoop_le buf n killed (n.toInt.toNat - i) i q
      unfold pipewrite at hk
      exact Or.inl (by omega)
  | inode ip =>
      simp only [hkind] at h
      split at h
      · rw [consolewrite, List.length_map, List.length_range] at h
        exact Or.inl h.2
      · rename_i htype
        obtain ⟨hgo, o, m, hmoves, -, hk⟩ := h
        exact Or.inr ⟨ip, rfl, htype, hgo, hmoves.lt hk⟩

/-- `fileread` stores only into the process's memory when the rest of the file fits. -/
theorem read_inside (hsz : p.sz ≤ usertop) (h : p.rwArgs = some (f, addr, n))
    (hfits : f.ReadFits p.sz addr n) (hk : f.ReadTouches s n k) : addr + UInt32.ofNat k < p.sz := by
  by_cases hn : 0 ≤ n
  · refine inside_of_lt (fits_of_nonneg hsz h hn) ?_
    rcases hk.lt with hlt | ⟨ip, -, -, hgo, hlt⟩
    · exact hlt
    · have := readClip_le hgo
      rw [toUInt32_toNat hn] at this
      omega
  · rcases hk.lt with hlt | ⟨ip, hkind, htype, hgo, hlt⟩
    · -- a negative length lets nothing through but to `readi`
      rw [Int32.le_iff_toInt_le, Int32.toInt_zero] at hn
      omega
    · unfold File.ReadFits at hfits
      rw [hkind] at hfits
      rcases hfits with hpos | hread | hdev | href | hfits
      · exact absurd hpos hn
      · exact absurd (hread.symm.trans hk.1) (by decide)
      · exact absurd hdev htype
      · exact absurd href hgo
      · exact inside_of_lt hfits hlt

theorem write_inside (hsz : p.sz ≤ usertop) (h : p.rwArgs = some (f, addr, n))
    (hfits : f.WriteFits p.sz addr n) (hk : f.WriteTouches s buf n k) :
    addr + UInt32.ofNat k < p.sz := by
  by_cases hn : 0 ≤ n
  · refine inside_of_lt (fits_of_nonneg hsz h hn) ?_
    rcases hk.lt with hlt | ⟨ip, -, -, hgo, hlt⟩
    · exact hlt
    · have := writeTaken_le f.off n.toUInt32
      rw [toUInt32_toNat hn] at this
      omega
  · rcases hk.lt with hlt | ⟨ip, hkind, htype, hgo, hlt⟩
    · rw [Int32.le_iff_toInt_le, Int32.toInt_zero] at hn
      omega
    · unfold File.WriteFits at hfits
      rw [hkind] at hfits
      rcases hfits with hpos | hwrite | hdev | href | hfits
      · exact absurd hpos hn
      · exact absurd (hwrite.symm.trans hk.1) (by decide)
      · exact absurd hdev htype
      · exact absurd href hgo
      · exact inside_of_lt hfits hlt

/-- A read that runs to its end touches every byte of its clipped length. -/
theorem readTouches_of_reads {dev : Devsw} (hread : f.readable = true) (hkind : f.kind = .inode ip)
    (htype : ip.type ≠ tDev) (hgo : ¬ RefusedAt ip f.off n.toUInt32) (h : f.Reads dev s n)
    (hk : k < (readClip ip f.off n.toUInt32).toNat) : f.ReadTouches s n k := by
  obtain ⟨r, out, ip', t, hr, hne⟩ := h ip hkind
  have hgo' : ¬ (f.off > ip.size ∨ f.off + n.toUInt32 < f.off) := hgo
  rw [readi, if_neg htype, if_neg hgo'] at hr
  obtain ⟨⟨⟨good, out'⟩, ip₁⟩, s₁, hloop, hr⟩ := bind_eq_ok hr
  have hgood : good = true := by
    cases good with
    | true => rfl
    | false =>
        cases hr
        exact absurd rfl hne
  subst hgood
  obtain ⟨q, hq, hle, hlt⟩ := exists_piece (Nat.le_refl _) hk
  refine ⟨hread, ?_⟩
  rw [hkind]
  simp only [if_neg htype]
  exact ⟨hgo, q.1, q.2, readiMoves_of_ok hloop hq, hle, hlt⟩

theorem writeTouches_of_writes {dev : Devsw} (hwrite : f.writable = true) (hkind : f.kind = .inode ip)
    (htype : ip.type ≠ tDev) (hgo : ¬ RefusedAt ip f.off n.toUInt32) (h : f.Writes dev s buf n)
    (hk : k < (writeCount f.off n.toUInt32).toNat) : f.WriteTouches s buf n k := by
  obtain ⟨r, ip', t, hr, -⟩ := h ip hkind
  have hgo' : ¬ (f.off > ip.size ∨ f.off + n.toUInt32 < f.off) := hgo
  rw [writei, if_neg htype, if_neg hgo'] at hr
  obtain ⟨ip₁, s₁, hloop, hr⟩ := bind_eq_ok hr
  obtain ⟨q, hq, hle, hlt⟩ := exists_piece (Nat.le_refl _) hk
  refine ⟨hwrite, ?_⟩
  rw [hkind]
  simp only [if_neg htype]
  exact ⟨hgo, q.1, q.2, writeiMoves_of_ok hloop hq, hle, hlt⟩

/-- The bytes below the largest size are counted alike by `writei` and by its clipped count. -/
theorem writeTaken_le_writeCount (off c : UInt32) : writeTaken off c ≤ (writeCount off c).toNat := by
  unfold writeTaken writeCount
  split
  · have hsub := UInt32.toNat_sub 71680 off
    have hmax : (71680 : UInt32).toNat = 71680 := rfl
    have hoff := off.toNat_lt
    by_cases hle : off.toNat ≤ 71680
    · rw [UInt32.toNat_sub_of_le _ _ (UInt32.le_iff_toNat_le.mpr hle), hmax]
    · omega
  · exact Nat.le_refl _

/-- **Which bytes of user memory are touched.**  A `read` or `write` that has passed its checks stays
inside the memory of the process if its length is not negative, or if what it is clipped to fits; and a
call that runs to its end stays inside only then. -/
theorem rw_inside_iff (hsz : p.sz ≤ usertop) (h : p.rwArgs = some (f, addr, n)) (dev : Devsw)
    (s : Bufs) :
    (f.ReadFits p.sz addr n → ∀ k, f.ReadTouches s n k → addr + UInt32.ofNat k < p.sz) ∧
      (f.WriteFits p.sz addr n → ∀ k,
        f.WriteTouches s (fun i => p.mem (addr + UInt32.ofNat i)) n k →
          addr + UInt32.ofNat k < p.sz) ∧
      (f.Reads dev s n → (∀ k, f.ReadTouches s n k → addr + UInt32.ofNat k < p.sz) →
        f.ReadFits p.sz addr n) ∧
      (f.Writes dev s (fun i => p.mem (addr + UInt32.ofNat i)) n →
        (∀ k, f.WriteTouches s (fun i => p.mem (addr + UInt32.ofNat i)) n k →
          addr + UInt32.ofNat k < p.sz) → f.WriteFits p.sz addr n) := by
  have hlt := (rwArgs_eq_some h).1
  have hlt' := UInt32.lt_iff_toNat_lt.mp hlt
  refine ⟨fun hfits k hk => read_inside hsz h hfits hk,
    fun hfits k hk => write_inside hsz h hfits hk, ?_, ?_⟩
  · intro hreads hinside
    by_contra hfits
    simp only [File.ReadFits, not_or] at hfits
    obtain ⟨-, hread, hfits⟩ := hfits
    cases hkind : f.kind with
    | none => simp [hkind] at hfits
    | pipe => simp [hkind] at hfits
    | inode ip =>
        simp only [hkind, not_or] at hfits
        obtain ⟨htype, hgo, hover⟩ := hfits
        -- the byte just behind the memory of the process is one of the buffer
        refine not_inside hlt (hinside _ (readTouches_of_reads ?_ hkind htype hgo hreads ?_))
        · simpa using hread
        · omega
  · intro hwrites hinside
    by_contra hfits
    simp only [File.WriteFits, not_or] at hfits
    obtain ⟨-, hwrite, hfits⟩ := hfits
    cases hkind : f.kind with
    | none => simp [hkind] at hfits
    | pipe => simp [hkind] at hfits
    | inode ip =>
        simp only [hkind, not_or] at hfits
        obtain ⟨htype, hgo, hover⟩ := hfits
        have hcount := writeTaken_le_writeCount f.off n.toUInt32
        refine not_inside hlt (hinside _ (writeTouches_of_writes ?_ hkind htype hgo hwrites ?_))
        · simpa using hwrite
        · omega

end Inside

/-- A file of 200 bytes. -/
def shortInode : Inode where
  type := tFile
  major := 0
  minor := 0
  nlink := 1
  size := 200
  addrs := fun k => if k = 0 then 50 else 0
  inum := 2

def shortFile : File where
  kind := .inode shortInode
  readable := true
  writable := false
  off := 0

/-- A process with one page that passes the address 4000 and the length `len`. -/
def lastBytes (len : UInt32) : Process where
  sz := 4096
  esp := 3000
  mem := fun a =>
    if a = 3008 then 0xA0
    else if a = 3009 then 0x0F
    else if 3012 ≤ a ∧ a < 3016 then (len >>> (8 * (a - 3012))).toUInt8
    else 0
  ofile := fun _ => some shortFile

def idleBufs : Bufs := { disk := fun _ _ => 0, busy := [] }

/-- With the length 96 the buffer ends where the memory does. -/
theorem rw_inside_iff_last_bytes :
    (lastBytes 96).rwArgs = some (shortFile, 4000, 96) ∧
      ∀ k, shortFile.ReadTouches idleBufs 96 k → 4000 + UInt32.ofNat k < (lastBytes 96).sz := by
  have hargs : (lastBytes 96).rwArgs = some (shortFile, 4000, 96) := rfl
  have hdev : Devsw := ⟨fun _ => none, fun _ => none⟩
  exact ⟨hargs, (rw_inside_iff (by decide) hargs hdev idleBufs).1 (Or.inl (by decide))⟩

/-- The length -1 passes `argptr`, as the sum wraps around, and `readi` takes it for `2^32 - 1` and
clips it to the 200 bytes of the file: byte 96 of them is stored behind the memory of the process. -/
theorem not_rw_inside :
    (lastBytes 0xFFFFFFFF).rwArgs = some (shortFile, 4000, -1) ∧
      shortFile.ReadTouches idleBufs (-1) 96 ∧
      ¬ (4000 : UInt32) + UInt32.ofNat 96 < (lastBytes 0xFFFFFFFF).sz := by
  refine ⟨rfl, ⟨rfl, ?_⟩, by decide⟩
  have hpieces : pieces (readClip shortInode shortFile.off (-1 : Int32).toUInt32).toNat
      shortFile.off.toNat (readClip shortInode shortFile.off (-1 : Int32).toUInt32).toNat =
      [(0, 200)] := by
    decide +kernel
  have hbmap : bmap shortInode (0 / bsize) idleBufs = .ok ((50, shortInode), idleBufs) := rfl
  have hread : bread 50 idleBufs = .ok (idleBufs.disk 50, { idleBufs with busy := [50] }) := rfl
  have htype : ¬ shortInode.type = tDev := by decide
  simp only [shortFile, if_neg htype]
  refine ⟨by decide +kernel, 0, 200, ?_, Nat.zero_le _, by decide⟩
  exact hpieces ▸ ReadiMoves.here hbmap hread

end Xv6
end LfsXv6
