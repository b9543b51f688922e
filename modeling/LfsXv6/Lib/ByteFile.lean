import Mathlib

/-!
# ByteFile — an open file with a descriptor offset

A file is a byte function with a size; a descriptor adds the offset that `read` and `write` move.
We keep what the system calls really do at the edges:

* `lseek` to a negative offset fails and leaves the descriptor where it was;
* `read` past the end is short and leaves the rest of the destination untouched;
* `write` past the end extends the file, and the gap reads as zero.

The file also remembers the list of `write` calls that were issued on it, oldest first, so that
statements about *where* a program writes need not be recovered from the bytes.
-/

namespace LfsXv6
namespace Lib

/-- The bytes of a memory object, by offset. -/
abbrev Mem := Nat → UInt8

/-- One `write` call: `len` bytes of `data` at offset `off`. -/
structure WriteCall where
  off : Nat
  len : Nat
  data : Mem

/-- An open file.  Bytes past `size` are zero, which is what a later extension exposes. -/
structure File where
  size : Nat
  byte : Nat → UInt8
  pos : Nat
  trace : List WriteCall
  hole : ∀ o, size ≤ o → byte o = 0

namespace File

/-- A file just created (or truncated) by `open`. -/
def empty : File where
  size := 0
  byte := fun _ => 0
  pos := 0
  trace := []
  hole := fun _ _ => rfl

/-- Move the descriptor. -/
def seekTo (f : File) (p : Nat) : File :=
  { f with pos := p }

/-- `lseek(fd, off, SEEK_SET)`; `EINVAL` on a negative offset. -/
def lseek (f : File) (off : Int) : File :=
  if off < 0 then f else f.seekTo off.toNat

/-- How many of `n` requested bytes a `read` at the descriptor delivers. -/
def avail (f : File) (n : Nat) : Nat :=
  min n (f.size - f.pos)

/-- `read(fd, dst, n)`: the new contents of `dst`, and the file with its descriptor advanced. -/
def read (f : File) (dst : Mem) (n : Nat) : Mem × File :=
  (fun o => if o < f.avail n then f.byte (f.pos + o) else dst o, f.seekTo (f.pos + f.avail n))

/-- Perform a write call at its own offset. -/
def pwrite (f : File) (w : WriteCall) : File where
  size := if w.len = 0 then f.size else max f.size (w.off + w.len)
  byte := fun o => if w.off ≤ o ∧ o < w.off + w.len then w.data (o - w.off) else f.byte o
  pos := w.off + w.len
  trace := f.trace ++ [w]
  hole := by
    intro o ho
    by_cases hlen : w.len = 0
    · rw [if_pos hlen] at ho
      rw [if_neg (by omega)]
      exact f.hole o ho
    · rw [if_neg hlen] at ho
      rw [if_neg (by omega)]
      exact f.hole o (by omega)

/-- `write(fd, data, len)`. -/
def write (f : File) (data : Mem) (len : Nat) : File :=
  f.pwrite { off := f.pos, len := len, data := data }

/-! ## The descriptor -/

section Descriptor

variable (f : File) (p q : Nat)

@[simp] theorem seekTo_size : (f.seekTo p).size = f.size := rfl
@[simp] theorem seekTo_byte : (f.seekTo p).byte = f.byte := rfl
@[simp] theorem seekTo_pos : (f.seekTo p).pos = p := rfl
@[simp] theorem seekTo_trace : (f.seekTo p).trace = f.trace := rfl
@[simp] theorem seekTo_seekTo : (f.seekTo p).seekTo q = f.seekTo q := rfl
@[simp] theorem seekTo_self : f.seekTo f.pos = f := rfl

@[simp] theorem pwrite_seekTo (w : WriteCall) : (f.seekTo p).pwrite w = f.pwrite w := rfl

@[simp] theorem pwrite_pos (w : WriteCall) : (f.pwrite w).pos = w.off + w.len := rfl
@[simp] theorem pwrite_trace (w : WriteCall) : (f.pwrite w).trace = f.trace ++ [w] := rfl

/-- A seek that succeeds forgets where the descriptor was. -/
theorem lseek_of_nonneg {off : Int} (h : 0 ≤ off) : f.lseek off = f.seekTo off.toNat := by
  simp [lseek, Int.not_lt.mpr h]

theorem lseek_of_neg {off : Int} (h : off < 0) : f.lseek off = f := by
  simp [lseek, h]

theorem seekTo_write (data : Mem) (len : Nat) :
    (f.seekTo p).write data len = f.pwrite { off := p, len := len, data := data } := rfl

/-- Inside the file a read is full, and returns the bytes at the descriptor. -/
theorem read_full {dst : Mem} {n : Nat} (h : f.pos + n ≤ f.size) :
    f.read dst n = (fun o => if o < n then f.byte (f.pos + o) else dst o, f.seekTo (f.pos + n)) := by
  have hav : f.avail n = n := by
    simp only [avail]
    omega
  simp [read, hav]

end Descriptor

/-! ## What a write call changes -/

section Pwrite

variable {f : File} {w : WriteCall} {o : Nat}

theorem pwrite_byte_of_mem (h₁ : w.off ≤ o) (h₂ : o < w.off + w.len) :
    (f.pwrite w).byte o = w.data (o - w.off) := by
  simp [pwrite, h₁, h₂]

theorem pwrite_byte_of_not_mem (h : o < w.off ∨ w.off + w.len ≤ o) :
    (f.pwrite w).byte o = f.byte o := by
  have : ¬ (w.off ≤ o ∧ o < w.off + w.len) := by omega
  simp [pwrite, this]

theorem size_le_pwrite : f.size ≤ (f.pwrite w).size := by
  simp only [pwrite]
  split <;> omega

theorem end_le_size_pwrite (h : 0 < w.len) : w.off + w.len ≤ (f.pwrite w).size := by
  simp only [pwrite]
  split <;> omega

end Pwrite

/-- Perform a list of write calls, in order. -/
def pwrites (f : File) (ws : List WriteCall) : File :=
  ws.foldl pwrite f

section Pwrites

variable {f : File} {w : WriteCall} {ws vs : List WriteCall} {o : Nat}

@[simp] theorem pwrites_nil : f.pwrites [] = f := rfl

@[simp] theorem pwrites_cons : f.pwrites (w :: ws) = (f.pwrite w).pwrites ws := rfl

theorem pwrites_append : f.pwrites (ws ++ vs) = (f.pwrites ws).pwrites vs := by
  simp [pwrites]

/-- Where the descriptor was before does not matter once it is moved again. -/
theorem pwrites_seekTo (p q : Nat) : ((f.seekTo p).pwrites ws).seekTo q = (f.pwrites ws).seekTo q := by
  cases ws with
  | nil => rfl
  | cons w ws => rfl

@[simp] theorem pwrites_trace : (f.pwrites ws).trace = f.trace ++ ws := by
  induction ws generalizing f with
  | nil => simp
  | cons w ws ih =>
      rw [pwrites_cons, ih]
      simp

theorem size_le_pwrites : f.size ≤ (f.pwrites ws).size := by
  induction ws generalizing f with
  | nil => exact Nat.le_refl _
  | cons w ws ih =>
      exact Nat.le_trans size_le_pwrite (ih (f := f.pwrite w))

/-- A byte outside every write call keeps its value. -/
theorem pwrites_byte_of_forall (h : ∀ w ∈ ws, o < w.off ∨ w.off + w.len ≤ o) :
    (f.pwrites ws).byte o = f.byte o := by
  induction ws generalizing f with
  | nil => rfl
  | cons w ws ih =>
      rw [pwrites_cons, ih (fun v hv => h v (List.mem_cons_of_mem _ hv))]
      exact pwrite_byte_of_not_mem (h w List.mem_cons_self)

end Pwrites

/-! ## Every prefix of a list of write calls -/

/-- `P` holds of the file however many of the write calls have been performed. -/
def Throughout (P : File → Prop) (f : File) (ws : List WriteCall) : Prop :=
  ∀ n, P (f.pwrites (ws.take n))

section Throughout

variable {P : File → Prop} {f : File} {w : WriteCall} {ws vs : List WriteCall}

theorem throughout_nil (h : P f) : Throughout P f [] := by
  intro n
  rw [List.take_nil]
  exact h

theorem throughout_cons (h : P f) (hws : Throughout P (f.pwrite w) ws) :
    Throughout P f (w :: ws) := by
  intro n
  cases n with
  | zero => exact h
  | succ n => exact hws n

theorem throughout_append (hws : Throughout P f ws) (hvs : Throughout P (f.pwrites ws) vs) :
    Throughout P f (ws ++ vs) := by
  intro n
  by_cases hn : n ≤ ws.length
  · rw [List.take_append_of_le_length hn]
    exact hws n
  · rw [List.take_append, List.take_of_length_le (by omega), pwrites_append]
    exact hvs _

/-- Where the descriptor stands before the first write call does not matter. -/
theorem throughout_of_seekTo {q : Nat} (h : P f) (hws : Throughout P (f.seekTo q) ws) :
    Throughout P f ws := by
  intro n
  cases n with
  | zero => exact h
  | succ n =>
      cases ws with
      | nil => exact h
      | cons w ws => exact hws (n + 1)

end Throughout

/-! ## Aligned blocks -/

/-- The bytes of block `b`, for blocks of `bs` bytes. -/
def blockAt (f : File) (bs b : Nat) : Mem :=
  fun o => f.byte (b * bs + o)

section Blocks

variable {f : File} {bs b c len : Nat} {data : Mem} {o : Nat}

@[simp] theorem blockAt_seekTo (p : Nat) : (f.seekTo p).blockAt bs b = f.blockAt bs b := rfl

/-- What a write at the start of a block leaves in that block. -/
theorem blockAt_pwrite_self (h : o < len) :
    (f.pwrite { off := b * bs, len := len, data := data }).blockAt bs b o = data o := by
  rw [blockAt, pwrite_byte_of_mem (by simp) (by simpa using h)]
  simp

/-- A write inside one block leaves every other block alone. -/
theorem blockAt_pwrite_ne (hlen : len ≤ bs) (hne : b ≠ c) (h : o < bs) :
    (f.pwrite { off := b * bs, len := len, data := data }).blockAt bs c o = f.blockAt bs c o := by
  refine pwrite_byte_of_not_mem ?_
  show c * bs + o < b * bs ∨ b * bs + len ≤ c * bs + o
  rcases Nat.lt_or_gt_of_ne hne with hlt | hgt
  · have := Nat.mul_le_mul_right bs (Nat.succ_le_of_lt hlt)
    rw [Nat.succ_mul] at this
    omega
  · have := Nat.mul_le_mul_right bs (Nat.succ_le_of_lt hgt)
    rw [Nat.succ_mul] at this
    omega

end Blocks

end File

end Lib
end LfsXv6
