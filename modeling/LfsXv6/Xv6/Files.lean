import LfsXv6.Xv6.Accounting
import LfsXv6.Xv6.Contents

/-!
# Files — a file is an array of bytes

The contents of a file are the bytes below its size.  On a file that starts empty, `writei` and `readi`
act as on an array of bytes, with the checksums of a checked file in between and with whatever is
written to other files at the same time.
-/

namespace LfsXv6
namespace Xv6

open Lib Prog

/-! ## The array -/

/-- The bytes of a file. -/
def content (disk : Nat → Sector) (n : Dinode) : List UInt8 :=
  (List.range n.size.toNat).map (byteAt disk n)

/-- The bytes from `off` on are replaced; the array grows where they reach past its end. -/
def overwrite (data : List UInt8) (off : Nat) (bytes : List UInt8) : List UInt8 :=
  data.take off ++ bytes ++ data.drop (off + bytes.length)

/-- An access that `readi` and `writei` turn down: it starts past the end, or its end overflows. -/
def Refused (data : List UInt8) (off n : UInt32) : Prop :=
  data.length < off.toNat ∨ 2 ^ 32 ≤ off.toNat + n.toNat

instance (data : List UInt8) (off n : UInt32) : Decidable (Refused data off n) :=
  inferInstanceAs (Decidable (_ ∨ _))

/-- A write to an array that cannot grow past `MAXFILE` blocks: what it returns, and the new array. -/
def arrayWrite (data src : List UInt8) (off n : UInt32) : Int × List UInt8 :=
  if Refused data off n then (-1, data)
  else ((min n.toNat (maxfile * bsize - off.toNat) : Nat),
    overwrite data off.toNat (src.take (min n.toNat (maxfile * bsize - off.toNat))))

/-- A read: what it returns, and the bytes. -/
def arrayRead (data : List UInt8) (off n : UInt32) : Int × List UInt8 :=
  if Refused data off n then (-1, [])
  else ((min n.toNat (data.length - off.toNat) : Nat), (data.drop off.toNat).take n.toNat)

@[simp] theorem length_content (disk : Nat → Sector) (n : Dinode) :
    (content disk n).length = n.size.toNat := by
  simp [content]

section Array

variable {disk disk' : Nat → Sector} {ip ip' : Inode} {off : Nat} {bytes : List UInt8}

theorem length_overwrite (data bytes : List UInt8) (h : off ≤ data.length) :
    (overwrite data off bytes).length = max data.length (off + bytes.length) := by
  simp only [overwrite, List.length_append, List.length_take, List.length_drop]
  omega

/-- A byte of the file after a write. -/
theorem byteAt_stored (h : Stored disk ip off bytes disk' ip') {data : List UInt8}
    (hoff : off ≤ data.length) {x : Nat} (hbn : x / bsize < maxfile) (hx : x < (overwrite data off bytes).length)
    (hold : ∀ hx : x < data.length, ¬ (off ≤ x ∧ x < off + bytes.length) →
      byteAt disk ip.toDinode x = data[x]) :
    byteAt disk' ip'.toDinode x = (overwrite data off bytes)[x] := by
  have hlt := hx
  rw [length_overwrite data bytes hoff] at hlt
  rw [h.byte x hbn]
  simp only [overwrite, List.getElem_append, List.length_append, List.length_take]
  by_cases h1 : x < off
  · rw [if_neg (by omega), dif_pos (by omega), dif_pos (by omega), List.getElem_take]
    exact hold (by omega) (by omega)
  · by_cases h2 : x < off + bytes.length
    · rw [if_pos (by omega), dif_pos (by omega), dif_neg (by omega), List.getD_eq_getElem _ _ (by omega)]
      congr 1
      omega
    · rw [if_neg (by omega), dif_neg (by omega), List.getElem_drop, hold (by omega) (by omega)]
      congr 1
      omega

theorem getElem_content {n : Dinode} {x : Nat} (hx : x < (content disk n).length) :
    (content disk n)[x] = byteAt disk n x := by
  simp [content]

/-- The bytes of the file after a write, of which those that are kept are known. -/
theorem content_stored (h : Stored disk ip off bytes disk' ip') {data : List UInt8}
    (hlen : data.length = ip.size.toNat) (hoff : off ≤ data.length)
    (hsize : ip'.size.toNat = max ip.size.toNat (off + bytes.length))
    (hmax : ip'.size.toNat ≤ maxfile * bsize)
    (hold : ∀ x (hx : x < data.length), ¬ (off ≤ x ∧ x < off + bytes.length) →
      byteAt disk ip.toDinode x = data[x]) :
    content disk' ip'.toDinode = overwrite data off bytes := by
  refine List.ext_getElem ?_ ?_
  · rw [length_content, length_overwrite data bytes hoff, hsize, hlen]
  · intro x hx hx'
    rw [length_content] at hx
    have hbn : x / bsize < maxfile := by
      simp only [maxfile, bsize] at hmax ⊢
      omega
    rw [getElem_content]
    exact byteAt_stored h hoff hbn hx' (hold x)

theorem content_slice (n : Nat) :
    ((content disk ip.toDinode).drop off).take n =
      (List.range (min n (ip.size.toNat - off))).map fun k => byteAt disk ip.toDinode (off + k) := by
  refine List.ext_getElem ?_ ?_
  · simp
  · intro x hx hx'
    simp [content]

end Array

/-! ## Calls on one file -/

/-- What is done to a file, and next to it. -/
inductive FileCall where
  | write (src : List UInt8) (off n : UInt32)
  | read (off n : UInt32)
  | other (c : FsCall)

/-- Run a function on the inode of a slot, under its lock. -/
def locked {α : Type} (f : Slot) (x : Inode → Prog Bufs (α × Inode)) : Prog Kernel α := do
  ilock f
  let r ← withNode f x
  iunlock f
  return r

/-- Execute a call; the file is that of slot `f`. -/
def FileCall.run (dev : Devsw) (f : Slot) : FileCall → Prog Kernel (Int32 × List UInt8)
  | .write src off n => do
      let r ← locked f fun node => writei dev node src off n
      return (r, [])
  | .read off n => locked f fun node => readi dev node off n
  | .other c => do
      c.run dev
      return (0, [])

/-- The inode of a slot as it stands on the disk. -/
def Kernel.file (s : Kernel) (f : Slot) : Inode :=
  { toDinode := dnode s.bufs.disk (s.icache f).node.inum, inum := (s.icache f).node.inum }

/-- The kernel after a function ran on the inode of slot `f` under its lock. -/
def Kernel.after (s : Kernel) (f : Slot) (bufs : Bufs) (node : Inode) : Kernel :=
  ({ s with bufs := bufs } : Kernel).set f { s.icache f with busy := false, valid := true, node := node }

/-- The calls that are considered: writes have their bytes and enough free blocks, and the other calls
make inodes, look them up and write to them. -/
def FileCall.Allowed (sb : Superblock) (f : Slot) (s : Kernel) : FileCall → Prop
  | .write src _ n => src.length = n.toNat ∧ Room sb s.bufs.disk (s.file f)
  | .read _ _ => True
  | .other (.create _) => True
  | .other (.get inum) => inum < sb.ninodes.toNat
  | .other (.link _ _) => False
  | .other (.write ip _ _ _) => ip ≠ f
  | .other (.put _) => False

/-- The same call on an array: what it returns, and the new array. -/
def FileCall.onArray (data : List UInt8) : FileCall → (Int × List UInt8) × List UInt8
  | .write src off n => (((arrayWrite data src off n).1, []), (arrayWrite data src off n).2)
  | .read off n => (arrayRead data off n, data)
  | .other _ => ((0, []), data)

/-- A sequence of calls on an array. -/
def arrayRun (data : List UInt8) : List FileCall → List (Int × List UInt8) × List UInt8
  | [] => ([], data)
  | c :: cs =>
      ((c.onArray data).1 :: (arrayRun (c.onArray data).2 cs).1, (arrayRun (c.onArray data).2 cs).2)

/-- The kernel holds a file in slot `f`, with any bytes. -/
structure Usable (sb : Superblock) (f : Slot) (s : Kernel) : Prop where
  accounted : Accounted sb s
  held : 0 < (s.icache f).ref
  unlocked : (s.icache f).busy = false
  type : (s.file f).type = tFile ∨ (s.file f).type = tChecked
  bound : (s.file f).size.toNat ≤ maxfile * bsize
  full : ∀ bn, bn * bsize < (s.file f).size.toNat → (s.file f).addr s.bufs.disk (blockPlace bn) ≠ 0

/-- What `writei` leaves of the file in slot `f` when it is not turned down: the disk, and the inode. -/
structure Wrote (sb : Superblock) (f : Slot) (s : Kernel) (off n : UInt32) (src : List UInt8)
    (node : Inode) (bufs : Bufs) : Prop where
  file : (s.after f bufs node).file f = node
  usable : Usable sb f (s.after f bufs node)
  written : Written sb s.bufs.disk (s.file f) bufs.disk node
  stored : Stored s.bufs.disk (s.file f) off.toNat (src.take (writeCount off n).toNat) bufs.disk node
  length : (src.take (writeCount off n).toNat).length = (writeCount off n).toNat
  count : (writeCount off n).toNat = min n.toNat (maxfile * bsize - off.toNat)
  size : node.size.toNat = max (s.file f).size.toNat (off.toNat + (writeCount off n).toNat)

/-- The kernel holds a file with the bytes `data` in slot `f`. -/
structure Backs (sb : Superblock) (f : Slot) (data : List UInt8) (s : Kernel) : Prop where
  accounted : Accounted sb s
  held : 0 < (s.icache f).ref
  unlocked : (s.icache f).busy = false
  type : (s.file f).type = tFile ∨ (s.file f).type = tChecked
  bound : (s.file f).size.toNat ≤ maxfile * bsize
  content : content s.bufs.disk (s.file f).toDinode = data
  full : ∀ bn, bn * bsize < (s.file f).size.toNat → (s.file f).addr s.bufs.disk (blockPlace bn) ≠ 0
  sound : (s.file f).type = tChecked → ∀ bn, bn < maxfile → Sound s.bufs.disk (s.file f).toDinode bn

theorem Kernel.file_after {s : Kernel} {f : Slot} {bufs : Bufs} {node : Inode}
    (h : dnode bufs.disk node.inum = node.toDinode) : (s.after f bufs node).file f = node := by
  unfold Kernel.file Kernel.after
  rw [Kernel.set_icache_self, Kernel.set_bufs]
  simp only [h]

section Locked

variable {α : Type} {sb : Superblock} {s : Kernel} {f : Slot} {x : Inode → Prog Bufs (α × Inode)}

theorem look_slot (s : Kernel) (f : Slot) :
    look (fun s : Kernel => s.icache f) s = .ok (s.icache f, s) := rfl

/-- `iget` returns if a slot is free. -/
theorem iget_ok (inum : Nat) {i : Slot} (hi : (s.icache i).ref = 0) : ∃ r t, iget inum s = .ok (r, t) := by
  unfold iget
  rw [bind_of_ok (a := s.icache) (t := s) rfl]
  cases hfind : (List.finRange ninode).find? fun j =>
      0 < (s.icache j).ref ∧ (s.icache j).node.inum = inum with
  | some j => exact ⟨j, _, rfl⟩
  | none =>
      cases hempty : (List.finRange ninode).find? fun j => (s.icache j).ref = 0 with
      | some j => exact ⟨j, _, rfl⟩
      | none =>
          have := List.find?_eq_none.mp hempty i (List.mem_finRange i)
          simp [hi] at this

theorem withNode_ok {a : α} {node : Inode} {bufs : Bufs}
    (h : x (s.icache f).node s.bufs = .ok ((a, node), bufs)) :
    withNode f x s = .ok (a, ({ s with bufs := bufs } : Kernel).set f { s.icache f with node := node }) := by
  have hdisk : onDisk (x (s.icache f).node) s = .ok ((a, node), { s with bufs := bufs }) := by
    unfold onDisk
    rw [h]
  unfold withNode
  rw [bind_of_ok (a := s.icache f) (t := s) rfl, bind_of_ok hdisk]
  rfl

theorem Accounted.file_of_valid (h : Accounted sb s) (href : 0 < (s.icache f).ref)
    (hv : (s.icache f).valid = true) : (s.icache f).node = s.file f :=
  Inode.ext_iff.mpr (by
    obtain ⟨hsync, _⟩ := h.synced f href hv
    simp only [Kernel.file, ← hsync, and_self])

theorem ilock_ok (h : Accounted sb s) (href : 0 < (s.icache f).ref)
    (hbusy : (s.icache f).busy = false) (htype : (s.file f).type ≠ 0) :
    ilock f s = .ok ((), s.set f { s.icache f with busy := true, valid := true, node := s.file f }) := by
  unfold ilock
  rw [bind_of_ok (a := s.icache f) (t := s) rfl, if_neg (by omega), hbusy]
  simp only [Bool.false_eq_true, if_false]
  rw [bind_of_ok (a := ()) (t := s.set f { s.icache f with busy := true }) rfl]
  by_cases hv : (s.icache f).valid = true
  · have hc : ({ s.icache f with busy := true } : Cached) =
        { s.icache f with busy := true, valid := true, node := (s.icache f).node } := by
      simp [hv]
    rw [if_pos hv, ← h.file_of_valid href hv, hc]
    rfl
  · have hload : onDisk (iload (s.icache f).node.inum) (s.set f { s.icache f with busy := true }) =
        .ok (s.file f, s.set f { s.icache f with busy := true }) := by
      unfold onDisk
      rw [Kernel.set_bufs, iload_ok h.idle]
      rfl
    rw [if_neg hv, bind_of_ok hload,
      bind_of_ok (a := ()) (t := (s.set f { s.icache f with busy := true }).set f
        { s.icache f with busy := true, valid := true, node := s.file f }) (by
          show Except.ok _ = Except.ok _
          simp [Kernel.set]),
      if_neg htype, Kernel.set_set]
    rfl

theorem iunlock_ok (hbusy : (s.icache f).busy = true) (href : 0 < (s.icache f).ref) :
    iunlock f s = .ok ((), s.set f { s.icache f with busy := false }) := by
  unfold iunlock
  rw [bind_of_ok (a := s.icache f) (t := s) rfl, if_neg]
  · rfl
  · rw [hbusy]
    simp only [Bool.true_eq_false, false_or]
    omega

/-- `iput` of an inode that has links, or of a reference that is not the last. -/
theorem iput_ok (hkeep : ¬ ((s.icache f).ref = 1 ∧ (s.icache f).valid = true ∧ (s.icache f).node.nlink = 0)) :
    iput f s = .ok ((), s.set f { s.icache f with ref := (s.icache f).ref - 1 }) := by
  have hlast : iputLast f s = .ok ((), s) := by
    unfold iputLast
    rw [bind_of_ok (look_slot s f), if_neg hkeep]
    rfl
  unfold iput
  rw [bind_of_ok hlast]
  rfl

/-- `iunlockput` of such an inode. -/
theorem iunlockput_ok (hbusy : (s.icache f).busy = true) (href : 0 < (s.icache f).ref)
    (hkeep : ¬ ((s.icache f).ref = 1 ∧ (s.icache f).valid = true ∧ (s.icache f).node.nlink = 0)) :
    iunlockput f s =
      .ok ((), s.set f { s.icache f with busy := false, ref := (s.icache f).ref - 1 }) := by
  have hput := iput_ok (s := s.set f { s.icache f with busy := false }) (f := f)
    (by rw [Kernel.set_icache_self]; exact hkeep)
  rw [Kernel.set_icache_self, Kernel.set_set] at hput
  unfold iunlockput
  rw [bind_of_ok (iunlock_ok hbusy href), hput]

/-- A function that returns on the inode of the disk returns under the lock. -/
theorem locked_ok (h : Accounted sb s) (href : 0 < (s.icache f).ref)
    (hbusy : (s.icache f).busy = false) (htype : (s.file f).type ≠ 0) {a : α} {node : Inode}
    {bufs : Bufs} (hx : x (s.file f) s.bufs = .ok ((a, node), bufs)) :
    locked f x s = .ok (a, s.after f bufs node) := by
  have hnode : withNode f x (s.set f { s.icache f with busy := true, valid := true, node := s.file f }) =
      .ok (a, _) := withNode_ok (by
        rw [Kernel.set_icache_self, Kernel.set_bufs]
        exact hx)
  have hunlock : iunlock f (({ s with bufs := bufs } : Kernel).set f
      { s.icache f with busy := true, valid := true, node := node }) = .ok ((), _) :=
    iunlock_ok (by rw [Kernel.set_icache_self]) (by rw [Kernel.set_icache_self]; exact href)
  unfold locked
  rw [bind_of_ok (ilock_ok h href hbusy htype), bind_of_ok hnode]
  simp only [Kernel.set_icache_self, Kernel.set_bufs_set]
  rw [bind_of_ok hunlock, Kernel.set_icache_self, Kernel.set_set]
  rfl

/-- What ran under the lock, if it returned. -/
theorem locked_eq_ok (h : Accounted sb s) (href : 0 < (s.icache f).ref)
    (hbusy : (s.icache f).busy = false) (htype : (s.file f).type ≠ 0) {a : α} {t : Kernel}
    (hrun : locked f x s = .ok (a, t)) : ∃ node bufs, x (s.file f) s.bufs = .ok ((a, node), bufs) ∧
      t = s.after f bufs node := by
  have hall := hrun
  unfold locked at hrun
  rw [bind_of_ok (ilock_ok h href hbusy htype)] at hrun
  obtain ⟨r, u, hnode, _⟩ := bind_eq_ok hrun
  obtain ⟨node, bufs, hx, _⟩ := withNode_eq_ok hnode
  rw [Kernel.set_icache_self, Kernel.set_bufs] at hx
  rw [locked_ok h href hbusy htype hx] at hall
  cases hall
  exact ⟨node, bufs, hx, rfl⟩

end Locked

/-! ## Steps -/

section Numbers

variable {off n : UInt32} {data : List UInt8}

theorem refused_iff {size : UInt32} (h : data.length = size.toNat) :
    Refused data off n ↔ (off > size ∨ off + n < off) := by
  have h1 := off.toNat_lt
  have h2 := n.toNat_lt
  unfold Refused
  rw [gt_iff_lt, UInt32.lt_iff_toNat_lt, UInt32.lt_iff_toNat_lt, UInt32.toNat_add, h]
  omega

theorem writeCount_toNat (hoff : off.toNat ≤ maxfile * bsize) (hn : off.toNat + n.toNat < 2 ^ 32) :
    (writeCount off n).toNat = min n.toNat (maxfile * bsize - off.toNat) := by
  have h716 : (71680 : UInt32).toNat = 71680 := rfl
  unfold writeCount
  simp only [maxfile, bsize] at hoff ⊢
  split
  · rename_i hgt
    rw [gt_iff_lt, UInt32.lt_iff_toNat_lt, UInt32.toNat_add, h716] at hgt
    rw [UInt32.toNat_sub_of_le _ _ (by rw [UInt32.le_iff_toNat_le, h716]; omega), h716]
    omega
  · rename_i hgt
    rw [gt_iff_lt, UInt32.lt_iff_toNat_lt, UInt32.toNat_add, h716] at hgt
    omega

theorem toInt_toInt32 {x : UInt32} (h : x.toNat < 2 ^ 31) : x.toInt32.toInt = x.toNat := by
  have hbv : x.toInt32.toBitVec = x.toBitVec := rfl
  rw [Int32.toInt, hbv, BitVec.toInt_eq_toNat_of_lt]
  · rfl
  · show 2 * x.toNat < 2 ^ 32
    omega

theorem grown_size {ip : Inode} {count : UInt32} (h : off.toNat + count.toNat < 2 ^ 32)
    (hoff : off.toNat ≤ ip.size.toNat) :
    (grown ip off count).size.toNat = max ip.size.toNat (off.toNat + count.toNat) := by
  have hsum : (off + count).toNat = off.toNat + count.toNat := by
    rw [UInt32.toNat_add]
    omega
  have h0 : (0 : UInt32).toNat = 0 := rfl
  unfold grown
  split
  · rename_i hc
    have := hc.2
    rw [gt_iff_lt, UInt32.lt_iff_toNat_lt, hsum] at this
    simp only [hsum]
    omega
  · rename_i hc
    rw [gt_iff_lt, gt_iff_lt, UInt32.lt_iff_toNat_lt, UInt32.lt_iff_toNat_lt, hsum, h0] at hc
    omega

/-- The number of bytes that `readi` goes for. -/
theorem readCount_toNat {size : UInt32} (hoff : off.toNat ≤ size.toNat)
    (hn : off.toNat + n.toNat < 2 ^ 32) :
    (if off + n > size then size - off else n).toNat = min n.toNat (size.toNat - off.toNat) := by
  have hsum : (off + n).toNat = off.toNat + n.toNat := by
    rw [UInt32.toNat_add]
    omega
  split
  · rename_i hgt
    rw [gt_iff_lt, UInt32.lt_iff_toNat_lt, hsum] at hgt
    rw [UInt32.toNat_sub_of_le _ _ (by rw [UInt32.le_iff_toNat_le]; exact hoff)]
    omega
  · rename_i hgt
    rw [gt_iff_lt, UInt32.lt_iff_toNat_lt, hsum] at hgt
    omega

end Numbers

/-- `readi` of a file whose blocks are there: it fails at a block that does not fit its checksum, and
otherwise returns the bytes. -/
theorem readi_ok {s : Bufs} {ip : Inode} (dev : Devsw) (off n : UInt32) (hbusy : s.busy = [])
    (hdev : ip.type ≠ tDev)
    (hmap : ∀ bn, bn * bsize < ip.size.toNat → bn < maxfile ∧ ip.addr s.disk (blockPlace bn) ≠ 0)
    (hoff : off.toNat ≤ ip.size.toNat) (hn : off.toNat + n.toNat < 2 ^ 32) {m : Nat}
    (hm : m = min n.toNat (ip.size.toNat - off.toNat)) :
    ∃ r out, readi dev ip off n s = .ok (((r, out), ip), s) ∧
      (r.toInt = -1 ↔ ¬ (ip.type = tChecked → ∀ x ∈ pieces m off.toNat m,
        Sound s.disk ip.toDinode (x.1 / bsize))) ∧
      (r.toInt ≠ -1 → r.toInt = m ∧
        out = (List.range m).map fun k => byteAt s.disk ip.toDinode (off.toNat + k)) := by
  have hcount : (if off + n > ip.size then ip.size - off else n).toNat = _ := readCount_toNat hoff hn
  rw [← hm] at hcount
  generalize hc : (if off + n > ip.size then ip.size - off else n) = count at hcount
  have hfit : off.toNat + m ≤ ip.size.toNat := by omega
  have hpieces : ∀ r ∈ pieces m off.toNat m, r.1 / bsize < maxfile ∧
      ip.addr s.disk (blockPlace (r.1 / bsize)) ≠ 0 ∧ r.1 % bsize + r.2 ≤ bsize := by
    intro r hr
    have hr' := mem_pieces hr
    have hin : r.1 / bsize * bsize < ip.size.toNat := by
      simp only [bsize] at hr' ⊢
      omega
    exact ⟨(hmap _ hin).1, (hmap _ hin).2, hr'.2.2.1⟩
  obtain ⟨good, out, hloop, hgood, hout⟩ := readiLoop_ok hbusy hpieces
  have hwrap : ¬ (off > ip.size ∨ off + n < off) := by
    have hsum : (off + n).toNat = off.toNat + n.toNat := by
      rw [UInt32.toNat_add]
      omega
    rw [gt_iff_lt, UInt32.lt_iff_toNat_lt, UInt32.lt_iff_toNat_lt, hsum]
    omega
  have hmax : m < 2 ^ 31 := by
    by_cases h0 : m = 0
    · omega
    · have hlast := (hmap ((off.toNat + m - 1) / bsize) (by simp only [bsize]; omega)).1
      simp only [bsize, maxfile] at hlast
      omega
  have hcount31 : count.toInt32.toInt = m := by
    rw [toInt_toInt32 (by omega), hcount]
  rw [readi, if_neg hdev, if_neg hwrap]
  simp only [hc, hcount]
  rw [bind_of_ok hloop]
  by_cases hg : good = true
  · refine ⟨count.toInt32, out, by simp only [hg, if_true]; rfl, ?_, fun _ => ⟨hcount31, ?_⟩⟩
    · refine iff_of_false ?_ (not_not.mpr (hgood.mp hg))
      rw [hcount31]
      omega
    · rw [hout hg, flatMap_pieces _ le_rfl]
  · refine ⟨-1, out, by simp only [hg]; rfl, ?_, fun hne => absurd rfl hne⟩
    exact iff_of_true rfl fun hs => hg (hgood.mpr hs)

section Room

variable {sb : Superblock} {ip : Inode} {disk : Nat → Sector} {off n : UInt32}

/-- `iupdate` uses no blocks. -/
theorem Holding.room_putNode (h : Holding sb disk ip) (hroom : Room sb disk ip) :
    Room sb (putNode disk (grown ip off n)) (grown ip off n) := by
  have hgrown : Holding sb disk (grown ip off n) := h.of_words grown_inum grown_type grown_addrs
  have hfile := hgrown.sameFile_putNode
  have hmiss : missing (putNode disk (grown ip off n)) (grown ip off n).toDinode =
      missing disk ip.toDinode := by
    ext q
    simp only [missing, Finset.mem_filter, hfile.addr, grown_addr]
  have hfree : freeBlocks sb (putNode disk (grown ip off n)) = freeBlocks sb disk := by
    refine freeBlocks_congr fun b hb => ?_
    refine Function.update_of_ne ?_ _ _
    rintro rfl
    have hblock := Superblock.inodeBlock_iblock hgrown.number
    exact absurd hb.1 (by have := hblock.2; omega)
  unfold Room
  rw [hmiss, hfree]
  exact hroom

end Room

namespace Usable

variable {sb : Superblock} {f : Slot} {data : List UInt8} {s t : Kernel} {dev : Devsw}
variable {off n : UInt32} {src : List UInt8}

theorem allocated (h : Usable sb f s) : (s.file f).type ≠ 0 := by
  rcases h.type with ht | ht <;> rw [ht] <;> decide

theorem not_dev (h : Usable sb f s) : (s.file f).type ≠ tDev := by
  rcases h.type with ht | ht <;> rw [ht] <;> decide

theorem holding (h : Usable sb f s) : Holding sb s.bufs.disk (s.file f) :=
  h.accounted.consistent.holding (h.accounted.number f h.held) h.allocated rfl

theorem locked (h : Usable sb f s) {α : Type} {x : Inode → Prog Bufs (α × Inode)} {a : α}
    {node : Inode} {bufs : Bufs} (hx : x (s.file f) s.bufs = .ok ((a, node), bufs)) :
    Xv6.locked f x s = .ok (a, s.after f bufs node) :=
  locked_ok h.accounted h.held h.unlocked h.allocated hx

/-- The file after a call that ran under its lock. -/
theorem after (h : Usable sb f s) {bufs : Bufs} {node : Inode} (hbusy : bufs.busy = [])
    (hw : Written sb s.bufs.disk (s.file f) bufs.disk node)
    (hbound : node.size.toNat ≤ maxfile * bsize)
    (hfull : ∀ bn, bn * bsize < node.size.toNat → node.addr bufs.disk (blockPlace bn) ≠ 0) :
    (s.after f bufs node).file f = node ∧ Usable sb f (s.after f bufs node) := by
  have hfile : (s.after f bufs node).file f = node := Kernel.file_after (by
    rw [hw.inum]
    exact hw.node)
  refine ⟨hfile, ?_, ?_, ?_, ?_, ?_, ?_⟩
  · refine h.accounted.update bufs hw.consistent hbusy (fun _ => ⟨h.held, hw.inum⟩) ?_ ?_
    · intro _ _
      refine ⟨?_, ?_⟩
      · rw [hw.inum]
        exact hw.node.symm
      · rw [hw.type]
        exact h.allocated
    · rintro j hj ⟨k, hki, rfl, hk, _⟩
      refine hw.others _ hj ?_
      intro heq
      exact hki (h.accounted.unique k f hk h.held heq)
  · rw [Kernel.after, Kernel.set_icache_self]
    exact h.held
  · rw [Kernel.after, Kernel.set_icache_self]
  · rw [hfile, hw.type]
    exact h.type
  · rw [hfile]
    exact hbound
  · rw [hfile]
    exact hfull

theorem after_same (h : Usable sb f s) :
    (s.after f s.bufs (s.file f)).file f = s.file f ∧ Usable sb f (s.after f s.bufs (s.file f)) :=
  h.after h.accounted.idle
    ⟨h.accounted.consistent, rfl, rfl, rfl, fun _ _ _ => rfl, fun _ _ _ _ => SameFile.refl _ _⟩
    h.bound h.full

theorem write_run (h : Usable sb f s) {r : Int32} {node : Inode} {bufs : Bufs}
    (hx : writei dev (s.file f) src off n s.bufs = .ok ((r, node), bufs)) :
    (FileCall.write src off n).run dev f s = .ok ((r, []), s.after f bufs node) := by
  have hlocked : Xv6.locked f (fun node => writei dev node src off n) s =
      .ok (r, s.after f bufs node) := h.locked hx
  rw [FileCall.run, bind_of_ok hlocked]
  rfl

theorem write_refused (h : Usable sb f s) (dev : Devsw) (src : List UInt8)
    (hdata : data.length = (s.file f).size.toNat) (href : Refused data off n) :
    (FileCall.write src off n).run dev f s = .ok ((-1, []), s.after f s.bufs (s.file f)) := by
  refine h.write_run ?_
  unfold writei
  rw [if_neg h.not_dev, if_pos ((refused_iff hdata).mp href)]
  rfl

/-- What `writei` does to the disk and to the inode when it is not turned down. -/
theorem wrote (h : Usable sb f s) (hlen : src.length = n.toNat)
    (hdata : data.length = (s.file f).size.toNat) (href : ¬ Refused data off n) {r : Int32} {node : Inode} {bufs : Bufs}
    (hrun : writei dev (s.file f) src off n s.bufs = .ok ((r, node), bufs)) :
    r = (writeCount off n).toInt32 ∧ Wrote sb f s off n src node bufs := by
  have hoff := mt (refused_iff hdata).mpr href
  have hbound := h.bound
  have hnot := href
  unfold Refused at hnot
  have hcount : (writeCount off n).toNat = min n.toNat (maxfile * bsize - off.toNat) :=
    writeCount_toNat (by omega) (by omega)
  have hle : (writeCount off n).toNat ≤ n.toNat := by
    rw [hcount]
    exact Nat.min_le_left _ _
  have hends : Ends (writei dev (s.file f) src off n) s.bufs True _ :=
    writei_stored h.holding h.accounted.idle h.not_dev hoff (by omega) fun _ => trivial
  obtain ⟨hret, _, disk, ip', hh, hsame, hst, hr, ht⟩ := hends.of_eq_ok hrun
  simp only at hret hr ht
  obtain ⟨hbusy, hwritten⟩ : bufs.busy = [] ∧ Written sb s.bufs.disk (s.file f) bufs.disk node :=
    writei_written h.accounted.consistent h.accounted.idle h.holding.number h.allocated rfl hrun
  have hbytes : (src.take (writeCount off n).toNat).length = (writeCount off n).toNat := by
    rw [List.length_take]
    omega
  have hgrown : Holding sb disk (grown ip' off (writeCount off n)) :=
    hh.of_words grown_inum grown_type grown_addrs
  have hsize' : ip'.size = (s.file f).size := by
    rw [hsame]
  have hsize : node.size.toNat = max (s.file f).size.toNat (off.toNat + (writeCount off n).toNat) := by
    rw [hr, grown_size (by omega) (by rw [hsize']; omega), hsize']
  have hstored := hst.finish hgrown
  rw [← hr, ← ht] at hstored
  have hmax : node.size.toNat ≤ maxfile * bsize := by
    rw [hsize, hcount]
    omega
  obtain ⟨hfile, hafter⟩ := h.after hbusy hwritten hmax fun bn hbn => by
    have hbnm : bn < maxfile := by
      simp only [maxfile, bsize] at hmax hbn ⊢
      omega
    refine hstored.assigned bn hbnm ?_
    by_cases hold : bn * bsize < (s.file f).size.toNat
    · exact .inl (h.full bn hold)
    · -- the block starts past the old end, which is not before `off`
      refine .inr ⟨bn * bsize, by omega, by rw [hbytes]; omega, ?_⟩
      simp only [bsize]
      omega
  exact ⟨hret, hfile, hafter, hwritten, hstored, hbytes, hcount, hsize⟩

/-- `writei` leaves enough free blocks if there were enough. -/
theorem wrote_room (h : Usable sb f s) (hdata : data.length = (s.file f).size.toNat)
    (href : ¬ Refused data off n) (hroom : Room sb s.bufs.disk (s.file f)) {r : Int32} {node : Inode}
    {bufs : Bufs} (hrun : writei dev (s.file f) src off n s.bufs = .ok ((r, node), bufs)) :
    Room sb bufs.disk node := by
  have hends : Ends (writei dev (s.file f) src off n) s.bufs True _ := writei_ends
    (I := fun _ _ disk ip => Room sb disk ip) (fun _ _ _ _ _ _ _ _ hI _ hturn => hturn.room.mpr hI)
    h.holding h.accounted.idle h.not_dev (mt (refused_iff hdata).mpr href) hroom fun _ => trivial
  obtain ⟨_, _, disk, ip', _, hh, _, hroom', hr, ht⟩ := hends.of_eq_ok hrun
  simp only at hr ht
  rw [ht, hr]
  exact hh.room_putNode hroom'

/-- `writei` returns if there are enough free blocks. -/
theorem write_returns (h : Usable sb f s) (dev : Devsw) (src : List UInt8) (off n : UInt32)
    (hlen : src.length = n.toNat)
    (hroom : Room sb s.bufs.disk (s.file f)) (hdata : data.length = (s.file f).size.toNat)
    (href : ¬ Refused data off n) :
    ∃ r node bufs, writei dev (s.file f) src off n s.bufs = .ok ((r, node), bufs) := by
  have hoff := mt (refused_iff hdata).mpr href
  have hbound := h.bound
  have hnot := href
  unfold Refused at hnot
  have hcount : (writeCount off n).toNat = min n.toNat (maxfile * bsize - off.toNat) :=
    writeCount_toNat (by omega) (by omega)
  have hends : Ends (writei dev (s.file f) src off n) s.bufs (¬ Room sb s.bufs.disk (s.file f) ∨
      maxfile * bsize < off.toNat + (writeCount off n).toNat) _ :=
    writei_stored h.holding h.accounted.idle h.not_dev hoff (by omega) id
  obtain ⟨⟨r, node⟩, bufs, hrun, _⟩ := hends.returns (by
    rintro (hc | hc)
    · exact hc hroom
    · rw [hcount] at hc
      omega)
  exact ⟨r, node, bufs, hrun⟩

/-- A read leaves the disk and the inode as they are.  It fails at a block that does not fit its checksum,
and otherwise returns the bytes. -/
theorem read_after (h : Usable sb f s) (dev : Devsw) (off n : UInt32)
    (hdata : data.length = (s.file f).size.toNat) :
    ∃ r out, (FileCall.read off n).run dev f s = .ok ((r, out), s.after f s.bufs (s.file f)) ∧
      (Refused data off n ∧ r = -1 ∧ out = [] ∨ ¬ Refused data off n ∧
        (r.toInt = -1 ↔ ¬ ((s.file f).type = tChecked →
          ∀ x ∈ pieces (min n.toNat (data.length - off.toNat)) off.toNat
            (min n.toNat (data.length - off.toNat)), Sound s.bufs.disk (s.file f).toDinode (x.1 / bsize))) ∧
        (r.toInt ≠ -1 → r.toInt = (min n.toNat (data.length - off.toNat) : Nat) ∧
          out = (List.range (min n.toNat (data.length - off.toNat))).map fun k =>
            byteAt s.bufs.disk (s.file f).toDinode (off.toNat + k))) := by
  by_cases href : Refused data off n
  · have hrun : readi dev (s.file f) off n s.bufs = .ok (((-1, []), s.file f), s.bufs) := by
      unfold readi
      rw [if_neg h.not_dev, if_pos ((refused_iff hdata).mp href)]
      rfl
    exact ⟨-1, [], h.locked hrun, .inl ⟨href, rfl, rfl⟩⟩
  have hbound := h.bound
  have hnot := href
  unfold Refused at hnot
  have hmap : ∀ bn, bn * bsize < (s.file f).size.toNat →
      bn < maxfile ∧ (s.file f).addr s.bufs.disk (blockPlace bn) ≠ 0 := by
    intro bn hbn
    refine ⟨?_, h.full bn hbn⟩
    simp only [maxfile, bsize] at hbound hbn ⊢
    omega
  obtain ⟨r, out, hrun, hfail, hout⟩ :=
    readi_ok dev off n h.accounted.idle h.not_dev hmap (by omega) (by omega) rfl
  rw [← hdata] at hfail hout
  exact ⟨r, out, h.locked hrun, .inr ⟨href, hfail, hout⟩⟩

end Usable

namespace Backs

variable {sb : Superblock} {f : Slot} {data : List UInt8} {s t : Kernel} {dev : Devsw}
variable {off n : UInt32} {src : List UInt8}

theorem usable (h : Backs sb f data s) : Usable sb f s :=
  ⟨h.accounted, h.held, h.unlocked, h.type, h.bound, h.full⟩

theorem length_eq (h : Backs sb f data s) : data.length = (s.file f).size.toNat := by
  rw [← h.content, length_content]

end Backs

theorem Usable.backs {sb : Superblock} {f : Slot} {data : List UInt8} {s : Kernel} (h : Usable sb f s)
    (hcontent : content s.bufs.disk (s.file f).toDinode = data)
    (hsound : (s.file f).type = tChecked → ∀ bn, bn < maxfile →
      Sound s.bufs.disk (s.file f).toDinode bn) :
    Backs sb f data s :=
  ⟨h.accounted, h.held, h.unlocked, h.type, h.bound, hcontent, h.full, hsound⟩

namespace Wrote

variable {sb : Superblock} {f : Slot} {data : List UInt8} {s : Kernel} {off n : UInt32}
variable {src : List UInt8} {node : Inode} {bufs : Bufs}

theorem toInt (h : Wrote sb f s off n src node bufs) :
    (writeCount off n).toInt32.toInt = (min n.toNat (maxfile * bsize - off.toNat) : Nat) := by
  have h31 : (writeCount off n).toNat < 2 ^ 31 := by
    rw [h.count]
    simp only [maxfile, bsize]
    omega
  rw [toInt_toInt32 h31, h.count]

/-- The file holds the array with the new bytes, if the bytes and the blocks that the write did not touch
were right. -/
theorem backs (h : Wrote sb f s off n src node bufs) (hdata : data.length = (s.file f).size.toNat)
    (href : ¬ Refused data off n)
    (hold : ∀ x (hx : x < data.length), ¬ (off.toNat ≤ x ∧ x < off.toNat + (writeCount off n).toNat) →
      byteAt s.bufs.disk (s.file f).toDinode x = data[x])
    (hsound : (s.file f).type = tChecked → ∀ bn, bn < maxfile →
      ¬ Touches off.toNat (writeCount off n).toNat bn → Sound s.bufs.disk (s.file f).toDinode bn) :
    Backs sb f (overwrite data off.toNat (src.take (writeCount off n).toNat)) (s.after f bufs node) := by
  have hfile := h.file
  have hbound := h.usable.bound
  have hbytes := h.length
  unfold Refused at href
  refine h.usable.backs ?_ ?_
  · rw [hfile] at hbound ⊢
    exact content_stored h.stored hdata (by omega) (by rw [hbytes]; exact h.size) hbound fun x hx hout =>
      hold x hx (by rwa [hbytes] at hout)
  · rw [hfile]
    intro htype bn hbn
    have htype' : (s.file f).type = tChecked := h.written.type.symm.trans htype
    by_cases htouch : Touches off.toNat (writeCount off n).toNat bn
    · exact h.stored.touched htype' bn hbn (by rwa [hbytes])
    · exact (h.stored.untouched bn hbn (by rwa [hbytes])).1 (hsound htype' bn hbn htouch)

end Wrote

namespace Backs

variable {sb : Superblock} {f : Slot} {data : List UInt8} {s t : Kernel} {dev : Devsw}
variable {off n : UInt32} {src : List UInt8}

theorem rebuild_same (h : Backs sb f data s) : Backs sb f data (s.after f s.bufs (s.file f)) := by
  obtain ⟨hfile, hafter⟩ := h.usable.after_same
  refine hafter.backs ?_ ?_
  · rw [hfile]
    exact h.content
  · rw [hfile]
    exact h.sound

theorem write (h : Backs sb f data s) (dev : Devsw) (off : UInt32) (hlen : src.length = n.toNat)
    (hroom : Room sb s.bufs.disk (s.file f)) :
    ∃ r t, (FileCall.write src off n).run dev f s = .ok ((r, []), t) ∧
      r.toInt = (arrayWrite data src off n).1 ∧ Backs sb f (arrayWrite data src off n).2 t := by
  by_cases href : Refused data off n
  · refine ⟨-1, _, h.usable.write_refused dev src h.length_eq href, ?_, ?_⟩
    · rw [arrayWrite, if_pos href]
      rfl
    · rw [arrayWrite, if_pos href]
      exact h.rebuild_same
  obtain ⟨r, node, bufs, hrun⟩ := h.usable.write_returns dev src off n hlen hroom h.length_eq href
  obtain ⟨hret, hw⟩ := h.usable.wrote hlen h.length_eq href hrun
  refine ⟨r, _, h.usable.write_run hrun, ?_, ?_⟩
  · rw [hret, hw.toInt, arrayWrite, if_neg href]
  · rw [arrayWrite, if_neg href, ← hw.count]
    refine hw.backs h.length_eq href ?_ fun htype bn hbn _ => h.sound htype bn hbn
    intro x hx _
    have hcontent := h.content
    simp only [← hcontent, getElem_content]

theorem read_after (h : Backs sb f data s) (dev : Devsw) (off n : UInt32) :
    ∃ r out, (FileCall.read off n).run dev f s = .ok ((r, out), s.after f s.bufs (s.file f)) ∧
      (r.toInt, out) = arrayRead data off n := by
  have hbound := h.bound
  have hlength := h.length_eq
  obtain ⟨r, out, hrun, ⟨href, rfl, rfl⟩ | ⟨href, hfail, hout⟩⟩ :=
    h.usable.read_after dev off n h.length_eq
  · refine ⟨-1, [], hrun, ?_⟩
    rw [arrayRead, if_pos href]
    rfl
  have hgood : r.toInt ≠ -1 := by
    refine fun hr => hfail.mp hr fun ht x hx => h.sound ht _ ?_
    have hx' := mem_pieces hx
    simp only [maxfile, bsize] at hbound hx' ⊢
    omega
  refine ⟨r, out, hrun, ?_⟩
  rw [arrayRead, if_neg href, (hout hgood).1, (hout hgood).2, hlength, ← h.content, content_slice]

theorem read (h : Backs sb f data s) (dev : Devsw) (off n : UInt32) :
    ∃ r out t, (FileCall.read off n).run dev f s = .ok ((r, out), t) ∧
      (r.toInt, out) = arrayRead data off n ∧ Backs sb f data t := by
  obtain ⟨r, out, hrun, hret⟩ := h.read_after dev off n
  exact ⟨r, out, _, hrun, hret, h.rebuild_same⟩

end Backs

/-! ## Other files -/

/-- A step that leaves the file of slot `f` alone. -/
structure Aside (f : Slot) (s t : Kernel) : Prop where
  held : 0 < (s.icache f).ref → 0 < (t.icache f).ref
  busy : (t.icache f).busy = (s.icache f).busy
  inum : (t.icache f).node.inum = (s.icache f).node.inum
  node : dnode t.bufs.disk (s.icache f).node.inum = dnode s.bufs.disk (s.icache f).node.inum
  file : SameFile s.bufs.disk t.bufs.disk (dnode s.bufs.disk (s.icache f).node.inum)

namespace Aside

variable {sb : Superblock} {f i : Slot} {s t u : Kernel}

theorem trans (h : Aside f s t) (h' : Aside f t u) : Aside f s u := by
  have hnode := h'.node
  have hfile := h'.file
  rw [h.inum] at hnode hfile
  rw [h.node] at hnode hfile
  exact ⟨fun hs => h'.held (h.held hs), h'.busy.trans h.busy, h'.inum.trans h.inum, hnode,
    h.file.trans hfile⟩

/-- Another slot changes. -/
theorem set_ne (hne : i ≠ f) (c : Cached) : Aside f s (s.set i c) := by
  have hsame : (s.set i c).icache f = s.icache f := Function.update_of_ne (Ne.symm hne) _ _
  exact ⟨by rw [hsame]; exact id, by rw [hsame], by rw [hsame], rfl, SameFile.refl _ _⟩

theorem of_iget {inum : Nat} {r : Slot} (href : 0 < (s.icache f).ref)
    (hrun : iget inum s = .ok (r, t)) : Aside f s t := by
  rcases iget_eq_ok hrun with ⟨hr, _, rfl⟩ | ⟨_, hr, rfl⟩
  · by_cases hrf : r = f
    · subst hrf
      refine ⟨?_, ?_, ?_, rfl, SameFile.refl _ _⟩
      · intro _
        rw [Kernel.set_icache_self]
        simp only
        omega
      · rw [Kernel.set_icache_self]
      · rw [Kernel.set_icache_self]
    · exact set_ne hrf _
  · refine set_ne ?_ _
    rintro rfl
    omega

/-- The disk changes, but for the inode and the blocks of the file. -/
theorem of_disk {bufs : Bufs}
    (hnode : dnode bufs.disk (s.icache f).node.inum = dnode s.bufs.disk (s.icache f).node.inum)
    (hfile : SameFile s.bufs.disk bufs.disk (dnode s.bufs.disk (s.icache f).node.inum)) :
    Aside f s { s with bufs := bufs } := ⟨id, rfl, rfl, hnode, hfile⟩

/-- A function of the lower layers runs on another inode. -/
theorem of_written (h : Accounted sb s) (href : 0 < (s.icache f).ref) (hi : 0 < (s.icache i).ref)
    (hne : i ≠ f) (htype : (s.file f).type ≠ 0) {bufs : Bufs} {node : Inode}
    (hw : Written sb s.bufs.disk (s.icache i).node bufs.disk node) (c : Cached) :
    Aside f s (({ s with bufs := bufs } : Kernel).set i c) := by
  have hnum : (s.icache f).node.inum ≠ (s.icache i).node.inum :=
    fun heq => hne (h.unique f i href hi heq).symm
  exact (of_disk (hw.others _ (h.number f href) hnum)
    (hw.files _ (h.number f href) hnum htype)).trans (set_ne hne c)

end Aside

namespace Usable

variable {sb : Superblock} {f : Slot} {s t : Kernel} {dev : Devsw}

theorem aside (h : Usable sb f s) (ha : Aside f s t) (hacc : Accounted sb t) :
    t.file f = s.file f ∧ Usable sb f t := by
  have hfile : t.file f = s.file f := by
    unfold Kernel.file
    rw [ha.inum, ha.node]
  refine ⟨hfile, hacc, ha.held h.held, ha.busy.trans h.unlocked, ?_, ?_, ?_⟩
  · rw [hfile]
    exact h.type
  · rw [hfile]
    exact h.bound
  · intro bn hbn
    rw [hfile] at hbn ⊢
    have hsame : (s.file f).addr t.bufs.disk (blockPlace bn) =
        (s.file f).addr s.bufs.disk (blockPlace bn) := ha.file.addr _
    rw [hsame]
    exact h.full bn hbn

/-- A call next to the file leaves it alone. -/
theorem other_aside (h : Usable sb f s) {c : FsCall} (hc : (FileCall.other c).Allowed sb f s)
    {x : Unit} (hrun : c.run dev s = .ok (x, t)) : Aside f s t ∧ Accounted sb t := by
  cases c with
  | create type =>
      refine ⟨?_, h.accounted.create hrun⟩
      unfold FsCall.run at hrun
      obtain ⟨inum, u, halloc, hrun⟩ := bind_eq_ok hrun
      obtain ⟨r, v, hget, hrun⟩ := bind_eq_ok hrun
      cases hrun
      obtain ⟨bufs, hx, rfl⟩ := onDisk_eq_ok halloc
      obtain ⟨hnum, hfree, rfl⟩ := ialloc_eq_ok h.accounted.consistent h.accounted.idle hx
      have hne : (s.icache f).node.inum ≠ inum := by
        rintro rfl
        exact h.allocated hfree
      have haside : Aside f s { s with
          bufs := { s.bufs with disk := putNode s.bufs.disk (newInode type inum) } } := by
        refine Aside.of_disk ?_ ?_
        · rw [dnode_putNode]
          exact Function.update_of_ne hne _ _
        · exact SameFile.putNode h.accounted.consistent.ledger h.holding.number h.allocated
            (Superblock.inodeBlock_iblock hnum)
      exact haside.trans (Aside.of_iget h.held hget)
  | get inum =>
      refine ⟨?_, h.accounted.step (c := .get inum) hc trivial hrun⟩
      unfold FsCall.run at hrun
      obtain ⟨r, u, hget, hrun⟩ := bind_eq_ok hrun
      cases hrun
      exact Aside.of_iget h.held hget
  | link ip nlink => exact hc.elim
  | write ip src off n =>
      refine ⟨?_, h.accounted.write hrun⟩
      unfold FsCall.run at hrun
      obtain ⟨_, u, hlock, hrun⟩ := bind_eq_ok hrun
      obtain ⟨r, v, hwrite, hrun⟩ := bind_eq_ok hrun
      obtain ⟨hu, _, href, hv⟩ := h.accounted.ilock hlock
      obtain ⟨_, node₀, rfl, _⟩ := ilock_eq_ok h.accounted.idle hlock
      obtain ⟨node, bufs, hx, rfl⟩ := withNode_eq_ok hwrite
      obtain ⟨hsync, htype⟩ := hu.synced ip href hv
      obtain ⟨_, hw⟩ := writei_written hu.consistent hu.idle (hu.number ip href) htype hsync.symm hx
      rw [iunlock_eq_ok hrun]
      have hset := Aside.set_ne (s := s) hc { s.icache ip with busy := true, valid := true, node := node₀ }
      have hallocated : ((s.set ip { s.icache ip with
          busy := true, valid := true, node := node₀ }).file f).type ≠ 0 := by
        unfold Kernel.file
        rw [hset.inum]
        exact h.allocated
      exact hset.trans ((Aside.of_written hu (hset.held h.held) href hc hallocated hw _).trans
        (Aside.set_ne hc _))
  | put ip => exact hc.elim

end Usable

namespace Backs

variable {sb : Superblock} {f : Slot} {data : List UInt8} {s t : Kernel} {dev : Devsw}

theorem aside (h : Backs sb f data s) (ha : Aside f s t) (hacc : Accounted sb t) :
    Backs sb f data t := by
  obtain ⟨hfile, husable⟩ := h.usable.aside ha hacc
  refine husable.backs ?_ ?_
  · rw [hfile, ← h.content]
    exact List.map_congr_left fun x _ => ha.file.byteAt_eq x
  · intro ht bn hbn
    rw [hfile] at ht ⊢
    exact ha.file.sound (h.sound ht bn hbn)

theorem other (h : Backs sb f data s) {c : FsCall} (hc : (FileCall.other c).Allowed sb f s) {x : Unit}
    (hrun : c.run dev s = .ok (x, t)) : Backs sb f data t := by
  obtain ⟨haside, hacc⟩ := h.usable.other_aside hc hrun
  exact h.aside haside hacc

/-- A call on the file or next to it does what it does to an array. -/
theorem step (h : Backs sb f data s) {c : FileCall} (hc : c.Allowed sb f s) {o : Int32 × List UInt8}
    (hrun : c.run dev f s = .ok (o, t)) :
    (o.1.toInt, o.2) = (c.onArray data).1 ∧ Backs sb f (c.onArray data).2 t := by
  cases c with
  | write src off n =>
      obtain ⟨r, u, hr, hret, hb⟩ := h.write dev off hc.1 hc.2
      rw [hr] at hrun
      cases hrun
      exact ⟨by rw [FileCall.onArray, hret], hb⟩
  | read off n =>
      obtain ⟨r, out, u, hr, hret, hb⟩ := h.read dev off n
      rw [hr] at hrun
      cases hrun
      exact ⟨hret, hb⟩
  | other c =>
      rw [FileCall.run] at hrun
      obtain ⟨x, u, hx, hrun⟩ := bind_eq_ok hrun
      cases hrun
      exact ⟨rfl, h.other hc hx⟩

theorem chain {cs : List FileCall} {os : List (Int32 × List UInt8)}
    (hrun : Chain (FileCall.run dev f) (FileCall.Allowed sb f) s cs os t) (h : Backs sb f data s) :
    os.map (fun o => (o.1.toInt, o.2)) = (arrayRun data cs).1 ∧ Backs sb f (arrayRun data cs).2 t := by
  induction hrun generalizing data with
  | nil s => exact ⟨rfl, h⟩
  | cons hok hrun _ ih =>
      obtain ⟨hout, hb⟩ := h.step hok hrun
      obtain ⟨houts, hb'⟩ := ih hb
      refine ⟨?_, hb'⟩
      rw [List.map_cons, hout, houts]
      rfl

end Backs

/-- A file without bytes and without blocks, of one of the two types that hold data. -/
structure FreshFile (sb : Superblock) (f : Slot) (s : Kernel) : Prop where
  accounted : Accounted sb s
  held : 0 < (s.icache f).ref
  unlocked : (s.icache f).busy = false
  type : (s.file f).type = tFile ∨ (s.file f).type = tChecked
  size : (s.file f).size = 0
  empty : ∀ p, (s.file f).addr s.bufs.disk p = 0

theorem FreshFile.backs {sb : Superblock} {f : Slot} {s : Kernel} (h : FreshFile sb f s) :
    Backs sb f [] s := by
  have hsize : (s.file f).size.toNat = 0 := by
    rw [h.size]
    rfl
  refine ⟨h.accounted, h.held, h.unlocked, h.type, by omega, ?_, fun bn hbn => ?_, ?_⟩
  · rw [content, hsize]
    rfl
  · omega
  · intro _ bn _ ha
    exact absurd (h.empty _) ha

/-- **Files are arrays of bytes.**  On a file that starts empty, every call of `writei` and `readi`
returns what it returns on an array of bytes, and the file holds the bytes of the array; a call on it
returns whenever there are enough free blocks; and the inode on the disk is the inode in memory. -/
theorem file_refines_array {sb : Superblock} {dev : Devsw} {f : Slot} {s t : Kernel}
    {cs : List FileCall} {os : List (Int32 × List UInt8)} (h : FreshFile sb f s)
    (hrun : Chain (FileCall.run dev f) (FileCall.Allowed sb f) s cs os t) :
    os.map (fun o => (o.1.toInt, o.2)) = (arrayRun [] cs).1 ∧
      content t.bufs.disk (t.file f).toDinode = (arrayRun [] cs).2 ∧
      (∀ src off n, (FileCall.write src off n).Allowed sb f t →
        ∃ o u, (FileCall.write src off n).run dev f t = .ok (o, u)) ∧
      (∀ off n, ∃ o u, (FileCall.read off n).run dev f t = .ok (o, u)) ∧
      ((t.icache f).valid = true →
        iload (t.icache f).node.inum t.bufs = .ok ((t.icache f).node, t.bufs)) := by
  obtain ⟨houts, hb⟩ := Backs.chain hrun h.backs
  refine ⟨houts, hb.content, ?_, ?_, ?_⟩
  · intro src off n hc
    obtain ⟨r, u, hr, _⟩ := hb.write dev off hc.1 hc.2
    exact ⟨_, u, hr⟩
  · intro off n
    obtain ⟨r, out, u, hr, _⟩ := hb.read dev off n
    exact ⟨_, u, hr⟩
  · intro hv
    rw [iload_ok hb.accounted.idle, hb.accounted.file_of_valid hb.held hv]
    rfl

/-! ## An empty file -/

/-- A disk of 8192 blocks with one inode, of a checked file without blocks. -/
def blankDisk : Nat → Sector
  | 1 => (Sector.zeros.setWord 0 8192).setWord 2 8
  | 2 => Sector.zeros.setDinode 1 (newInode tChecked 1).toDinode
  | 4 => Function.update Sector.zeros 0 0x7f
  | _ => Sector.zeros

/-- The kernel has just made the file. -/
def blankFile : Kernel where
  bufs := { disk := blankDisk, busy := [] }
  icache := fun i =>
    if i = 0 then ⟨1, false, false, newInode tChecked 1⟩ else ⟨0, false, false, newInode 0 0⟩

theorem refs_blankDisk (r : Nat × Place) : refs ⟨8192, 8⟩ blankDisk (dnode blankDisk) r = 0 := by
  obtain ⟨i, p⟩ := r
  by_cases hi : i < 8
  · have hall : ∀ i : Fin 8, ∀ p : Place, refs ⟨8192, 8⟩ blankDisk (dnode blankDisk) (i, p) = 0 := by
      decide +kernel
    exact hall ⟨i, hi⟩ p
  · exact if_neg fun hc => hi hc.1

theorem marked_blankDisk {b : Nat} (hb : b < 8192) : marked ⟨8192, 8⟩ blankDisk b ↔ b < 7 := by
  have hni : (Superblock.mk 8192 8).ninodes.toNat = 8 := rfl
  have hsec : bblock b 8 = b / 4096 + 4 := rfl
  rw [marked, hni, hsec]
  by_cases hlo : b < 4096
  · have h0 : b / 4096 + 4 = 4 := by omega
    have hmod : b % bpb = b := Nat.mod_eq_of_lt hlo
    rw [h0, hmod]
    by_cases h8 : b < 8
    · have hall : ∀ b : Fin 8, (blankDisk 4).bit b = true ↔ (b : Nat) < 7 := by decide +kernel
      exact hall ⟨b, h8⟩
    · refine iff_of_false ?_ (by omega)
      have hbit : (blankDisk 4).bit b = false := bit_update_zeros (by omega)
      rw [hbit]
      exact Bool.false_ne_true
  · have h1 : b / 4096 + 4 = 5 := by omega
    rw [h1]
    refine iff_of_false ?_ (by omega)
    have hbit : (blankDisk 5).bit (b % bpb) = false := bit_zeros _
    rw [hbit]
    exact Bool.false_ne_true

theorem blankDisk_consistent : Consistent ⟨8192, 8⟩ blankDisk := by
  have hmeta : (Superblock.mk 8192 8).metaBlocks = 7 := rfl
  have hcap : (Superblock.mk 8192 8).cap = 8192 := rfl
  refine ⟨by decide, by decide +kernel, ?_, ?_, ?_, ?_⟩
  · intro b hb
    rw [hcap] at hb
    rw [hmeta, marked_blankDisk hb]
    simp only [refs_blankDisk]
    omega
  · intro k k' hk
    exact absurd (refs_blankDisk k) hk
  · intro k hk
    exact absurd (refs_blankDisk k) hk
  · intro b hlo _ _ o _
    rw [hmeta] at hlo
    have hzero : blankDisk b = Sector.zeros := by
      unfold blankDisk
      split <;> first | omega | rfl
    rw [hzero]
    rfl

theorem blankFile_fresh : FreshFile ⟨8192, 8⟩ 0 blankFile := by
  have hheld : ∀ i, 0 < (blankFile.icache i).ref → i = 0 := by decide
  refine ⟨⟨blankDisk_consistent, rfl, ?_, ?_, ?_⟩, by decide, rfl, .inr (by decide +kernel),
    by decide +kernel, by decide +kernel⟩
  · intro i hi
    rw [hheld i hi]
    decide
  · intro i hi hv
    rw [hheld i hi] at hv
    cases hv
  · intro i j hi hj _
    rw [hheld i hi, hheld j hj]

theorem card_missing_le (disk : Nat → Sector) (n : Dinode) : (missing disk n).card ≤ 141 := by
  refine (Finset.card_le_univ _).trans ?_
  decide +kernel

/-- There are more than 141 free blocks. -/
theorem le_card_freeBlocks : 141 ≤ (freeBlocks ⟨8192, 8⟩ blankDisk).card := by
  have hfree : Finset.Ico 7 148 ⊆ freeBlocks ⟨8192, 8⟩ blankDisk := by
    intro b hb
    have hb' := Finset.mem_Ico.mp hb
    refine Finset.mem_filter.mpr ⟨Finset.mem_range.mpr ?_, ?_⟩
    · show b < 8192
      omega
    · rw [marked_blankDisk (by omega)]
      omega
  have := Finset.card_le_card hfree
  rwa [Nat.card_Ico] at this

theorem blankFile_room : Room ⟨8192, 8⟩ blankFile.bufs.disk (blankFile.file 0) :=
  (card_missing_le _ _).trans le_card_freeBlocks

theorem file_refines_array_hello : ∃ t os, Chain (FileCall.run noDevices 0)
    (FileCall.Allowed ⟨8192, 8⟩ 0) blankFile [.write [1, 2, 3] 0 3, .read 1 5] os t ∧
      os.map (fun o => (o.1.toInt, o.2)) = [(3, []), (2, [2, 3])] := by
  have hwrite : (FileCall.write [1, 2, 3] 0 3).Allowed ⟨8192, 8⟩ 0 blankFile := ⟨rfl, blankFile_room⟩
  obtain ⟨r, t, hrun, _, hb⟩ := blankFile_fresh.backs.write noDevices 0 hwrite.1 hwrite.2
  obtain ⟨r', out, u, hrun', _, _⟩ := hb.read noDevices 1 5
  have hchain := Chain.cons hwrite hrun (Chain.cons (i := FileCall.read 1 5) trivial hrun' (Chain.nil u))
  exact ⟨u, _, hchain, (file_refines_array blankFile_fresh hchain).1⟩

end Xv6
end LfsXv6
