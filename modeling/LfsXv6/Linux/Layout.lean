import LfsXv6.Lib.Int32Codec

/-!
# Layout — the structures of `lfs.h` and `mfs.h` and their bytes on the image

The image is read and written through the C structures `inode` (31 `int`s, 124 bytes) and
`directory` (128 `int`s followed by 128 names of 28 bytes, one block).  Neither has padding, so
the structures below are in bijection with their bytes; `decode` is total and reads whatever bytes
are there.
-/

namespace LfsXv6
namespace Linux

open Lib

/-! ## Constants -/

/-- `BLOCKSIZE` -/
abbrev blockSize : Nat := 4096

/-- `sizeof(inode)` -/
abbrev inodeSize : Nat := 124

/-- `MAXINODES` -/
abbrev maxInodes : Nat := 4096

/-- `CRSIZE`, the blocks set aside for the checkpoint region -/
abbrev crSize : Nat := 6

/-- `MFS_DIRECTORY` -/
def mfsDirectory : Int32 := 0

/-- `MFS_REGULAR_FILE` -/
def mfsRegularFile : Int32 := 1

-- The two array bounds of `lfs.h`: 14 pointers in an inode, 128 entries in a directory block.
instance neZeroPointers : NeZero 14 := ⟨by decide⟩

instance neZeroEntries : NeZero 128 := ⟨by decide⟩

/-- The contents of one block. -/
abbrev Block := Fin 4096 → UInt8

def blockOf (m : Mem) : Block := fun k => m k

def Block.mem (b : Block) : Mem := fun o => if h : o < 4096 then b ⟨o, h⟩ else 0

@[simp] theorem blockOf_mem (b : Block) : blockOf b.mem = b := by
  funext k
  simp [blockOf, Block.mem]

theorem blockOf_congr {m m' : Mem} (h : ∀ o, o < 4096 → m o = m' o) : blockOf m = blockOf m' := by
  funext k
  exact h k k.isLt

/-! ## Names -/

/-- The C string stored in a 28-byte name field. -/
@[irreducible] def cstr (a : Fin 28 → UInt8) : List UInt8 :=
  (List.ofFn a).takeWhile (· ≠ 0)

/-- `strcpy` into a name field: the bytes after the terminator keep their old contents. -/
def strcpy (dst : Fin 28 → UInt8) (src : List UInt8) : Fin 28 → UInt8 :=
  fun k => if k < src.length then src.getD k 0 else if k = src.length then 0 else dst k

/-- A name as a packet carries it: a C string of at most 27 bytes. -/
structure Name where
  bytes : List UInt8
  length_le : bytes.length ≤ 27
  no_nul : 0 ∉ bytes
  deriving DecidableEq

namespace Name

theorem ext {m n : Name} (h : m.bytes = n.bytes) : m = n := by
  cases m
  cases n
  exact Name.mk.injEq .. ▸ h

/-- `"."` -/
def dot : Name := ⟨[46], by decide, by decide⟩

/-- `".."` -/
def dotdot : Name := ⟨[46, 46], by decide, by decide⟩

/-- `"DNE"`, the name the server stores in a free directory slot -/
def dne : Name := ⟨[68, 78, 69], by decide, by decide⟩

end Name

theorem ofFn_strcpy (dst : Fin 28 → UInt8) {src : List UInt8} (h : src.length ≤ 27) :
    ∃ tail, List.ofFn (strcpy dst src) = src ++ 0 :: tail := by
  refine ⟨(List.ofFn dst).drop (src.length + 1), ?_⟩
  apply List.ext_getElem
  · simp
    omega
  · intro k hk _
    have hk28 : k < 28 := by simpa using hk
    rw [List.getElem_ofFn]
    by_cases hlt : k < src.length
    · simp [strcpy, hlt]
    · by_cases heq : k = src.length
      · simp [strcpy, heq]
      · obtain ⟨j, rfl⟩ : ∃ j, k = src.length + (j + 1) := ⟨k - src.length - 1, by omega⟩
        rw [List.getElem_append_right (by omega)]
        simp only [Nat.add_sub_cancel_left, List.getElem_cons_succ, List.getElem_drop,
          List.getElem_ofFn]
        rw [strcpy, if_neg hlt, if_neg heq]
        congr 2
        omega

/-- A name that was copied in is read back. -/
theorem cstr_strcpy (dst : Fin 28 → UInt8) (n : Name) : cstr (strcpy dst n.bytes) = n.bytes := by
  obtain ⟨tail, htail⟩ := ofFn_strcpy dst n.length_le
  have hpos : ∀ a ∈ n.bytes, decide (a ≠ 0) = true := by
    intro a ha
    simp only [ne_eq, decide_not, Bool.not_eq_eq_eq_not, Bool.not_true, decide_eq_false_iff_not]
    rintro rfl
    exact n.no_nul ha
  rw [cstr, htail, List.takeWhile_append_of_pos hpos]
  simp

theorem nul_not_mem_cstr (a : Fin 28 → UInt8) : 0 ∉ cstr a := by
  intro hmem
  rw [cstr] at hmem
  exact absurd (List.mem_takeWhile_imp hmem) (by simp)

/-! ## `inode` -/

/-- `inode` of `lfs.h` -/
@[ext] structure Inode where
  size : Int32
  type : Int32
  inum : Int32
  dpointers : Fin 14 → Int32
  dpUsed : Fin 14 → Int32

namespace Inode

/-- The `k`-th of the 31 `int`s of the structure. -/
def word (n : Inode) (k : Nat) : Int32 :=
  if k = 0 then n.size
  else if k = 1 then n.type
  else if k = 2 then n.inum
  else if h : k - 3 < 14 then n.dpointers ⟨k - 3, h⟩
  else if h : k - 17 < 14 then n.dpUsed ⟨k - 17, h⟩
  else 0

def encode (n : Inode) : Mem :=
  fun o => intByte (n.word (o / 4)) (o % 4)

def decode (m : Mem) : Inode where
  size := getInt m 0
  type := getInt m 4
  inum := getInt m 8
  dpointers := fun k => getInt m (12 + 4 * k)
  dpUsed := fun k => getInt m (68 + 4 * k)

theorem getInt_encode {m : Mem} {n : Inode} (h : ∀ o, o < inodeSize → m o = n.encode o) {k : Nat}
    (hk : k < 31) : getInt m (4 * k) = n.word k := by
  refine getInt_eq ?_
  intro j hj
  rw [h _ (by simp only [inodeSize]; omega), encode]
  congr 2 <;> omega

/-- Bytes that agree with an encoded inode decode to it. -/
theorem decode_eq {m : Mem} {n : Inode} (h : ∀ o, o < inodeSize → m o = n.encode o) :
    decode m = n := by
  ext k
  · exact getInt_encode h (k := 0) (by omega)
  · exact getInt_encode h (k := 1) (by omega)
  · exact getInt_encode h (k := 2) (by omega)
  · have hw := getInt_encode h (k := 3 + k) (by omega)
    rw [show 4 * (3 + (k : Nat)) = 12 + 4 * k by omega] at hw
    simpa [decode, word, show ¬ (3 + (k : Nat) = 1) by omega, show ¬ (3 + (k : Nat) = 2) by omega]
      using hw
  · have hw := getInt_encode h (k := 17 + k) (by omega)
    rw [show 4 * (17 + (k : Nat)) = 68 + 4 * k by omega] at hw
    simpa [decode, word, show ¬ (17 + (k : Nat) = 1) by omega, show ¬ (17 + (k : Nat) = 2) by omega,
      show ¬ (17 + (k : Nat) - 3 < 14) by omega] using hw

theorem decode_congr {m m' : Mem} (h : ∀ o, o < inodeSize → m o = m' o) :
    decode m = decode m' := by
  have hget : ∀ o, o + 4 ≤ 124 → getInt m o = getInt m' o := by
    intro o ho
    exact getInt_congr (fun k hk => h _ (by simp only [inodeSize]; omega))
  ext k
  · exact hget 0 (by omega)
  · exact hget 4 (by omega)
  · exact hget 8 (by omega)
  · exact hget (12 + 4 * k) (by omega)
  · exact hget (68 + 4 * k) (by omega)

end Inode

/-! ## `directory` -/

/-- `directory` of `lfs.h`: one block of 128 entries -/
@[ext] structure Directory where
  inums : Fin 128 → Int32
  names : Fin 128 → Fin 28 → UInt8

namespace Directory

def encode (d : Directory) : Mem :=
  fun o =>
    if h : o < 512 then intByte (d.inums ⟨o / 4, by omega⟩) (o % 4)
    else if h : (o - 512) / 28 < 128 then
      d.names ⟨(o - 512) / 28, h⟩ ⟨(o - 512) % 28, Nat.mod_lt _ (by omega)⟩
    else 0

def decode (m : Mem) : Directory where
  inums := fun e => getInt m (4 * e)
  names := fun e k => m (512 + 28 * e + k)

theorem encode_name {d : Directory} {e : Fin 128} {k : Fin 28} {o : Nat}
    (ho : o = 512 + 28 * e + k) : d.encode o = d.names e k := by
  have hdiv : (o - 512) / 28 = e := by omega
  have hmod : (o - 512) % 28 = k := by omega
  rw [encode, dif_neg (by omega), dif_pos (by omega)]
  exact congr (congrArg d.names (Fin.ext hdiv)) (Fin.ext hmod)

/-- Bytes that agree with an encoded directory block decode to it. -/
theorem decode_eq {m : Mem} {d : Directory} (h : ∀ o, o < blockSize → m o = d.encode o) :
    decode m = d := by
  refine Directory.ext (funext fun e => ?_) (funext fun e => funext fun k => ?_)
  · have hbyte : ∀ j, j < 4 → m (4 * e + j) = intByte (d.inums e) j := by
      intro j hj
      rw [h _ (by simp only [blockSize]; omega), encode, dif_pos (by omega)]
      congr 2
      · exact Fin.ext (by simp only; omega)
      · omega
    exact getInt_eq hbyte
  · exact (h (512 + 28 * e + k) (by simp only [blockSize]; omega)).trans (encode_name rfl)

theorem decode_congr {m m' : Mem} (h : ∀ o, o < blockSize → m o = m' o) :
    decode m = decode m' := by
  refine Directory.ext (funext fun e => ?_) (funext fun e => funext fun k => ?_)
  · exact getInt_congr (fun j hj => h (4 * e + j) (by simp only [blockSize]; omega))
  · exact h (512 + 28 * e + k) (by simp only [blockSize]; omega)

/-- First entry whose name is `name`: the scan `for (j = 0; j < 128; j++) if (strcmp(..) == 0)`. -/
@[irreducible] def findName (d : Directory) (name : Name) : Option (Fin 128) :=
  (List.finRange 128).find? fun j => cstr (d.names j) = name.bytes

/-- First free entry: the scan `for (e = 0; e < 128; e++) if (inums[e] == -1)`. -/
@[irreducible] def findFree (d : Directory) : Option (Fin 128) :=
  (List.finRange 128).find? fun e => d.inums e = -1

/-- Store an entry: `inums[e] = inum; strcpy(names[e], name)`. -/
def setEntry (d : Directory) (e : Fin 128) (inum : Int32) (name : Name) : Directory where
  inums := Function.update d.inums e inum
  names := Function.update d.names e (strcpy (d.names e) name.bytes)

end Directory

/-! ## `MFS_Stat_t`, `MFS_DirEnt_t` -/

/-- `MFS_Stat_t` -/
structure Stat where
  type : Int32
  size : Int32
  deriving DecidableEq

/-- `MFS_DirEnt_t` -/
structure DirEnt where
  name : Fin 28 → UInt8
  inum : Int32

/-- The 32 bytes of an `MFS_DirEnt_t`. -/
def DirEnt.encode (d : DirEnt) : Mem :=
  fun o => if h : o < 28 then d.name ⟨o, h⟩ else intByte d.inum (o - 28)

end Linux
end LfsXv6
