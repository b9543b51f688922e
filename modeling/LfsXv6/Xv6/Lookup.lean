import LfsXv6.Xv6.Contents
import LfsXv6.Xv6.Icache

/-!
# Lookup — reading files and directories whose blocks are there

`readi` and `dirlookup` go through `bmap`, which allocates what is missing.  Where the blocks are there
they only read: neither the disk nor the inode changes.
-/

namespace LfsXv6
namespace Xv6

open Lib Prog

section Names

/-- Strings are the same for `strncmp` if they have the same bytes before a zero or the limit. -/
theorem strncmp_eq_zero {n : Nat} {p q : List UInt8} :
    strncmp n p q = 0 ↔ (p.take n).takeWhile (· != 0) = (q.take n).takeWhile (· != 0) := by
  induction n generalizing p q with
  | zero => simp [strncmp]
  | succ n ih =>
      have hhead : ∀ l : List UInt8, (l.take (n + 1)).takeWhile (· != 0) =
          if l.headD 0 = 0 then [] else l.headD 0 :: (l.tail.take n).takeWhile (· != 0) := by
        intro l
        cases l with
        | nil => rfl
        | cons b l =>
            by_cases hb : b = 0
            · simp [hb]
            · simp [hb]
      rw [strncmp, hhead p, hhead q]
      by_cases hp : p.headD 0 = 0
      · rw [if_neg (fun hc => hc.1 hp), if_pos hp, hp]
        by_cases hq : q.headD 0 = 0
        · simp only [hq, if_true, sub_self]
        · have hpos : (q.headD 0).toNat ≠ 0 := fun h0 => hq (UInt8.toNat_inj.mp h0)
          rw [if_neg hq]
          simp only [UInt8.toNat_zero, reduceCtorEq, iff_false]
          omega
      · rw [if_neg hp]
        by_cases heq : p.headD 0 = q.headD 0
        · rw [if_pos ⟨hp, heq⟩, ← heq, if_neg hp, ih]
          simp
        · have hne : (p.headD 0).toNat ≠ (q.headD 0).toNat := fun hc => heq (UInt8.toNat_inj.mp hc)
          rw [if_neg fun hc => heq hc.2]
          refine iff_of_false (by omega) ?_
          split
          · exact List.cons_ne_nil _ _
          · exact fun hc => heq (List.cons.inj hc).1

/-- Names that fit are the same for `namecmp` if they are equal. -/
theorem namecmp_eq_zero {s t : List UInt8} (hs : 0 ∉ s) (ht : 0 ∉ t) (hshort : t.length ≤ 14) :
    namecmp s t = 0 ↔ t = s.take 14 := by
  have hall : ∀ {l : List UInt8}, 0 ∉ l → (l.take 14).takeWhile (· != 0) = l.take 14 := by
    intro l hl
    refine List.takeWhile_eq_self_iff.mpr fun b hb => ?_
    rw [bne_iff_ne]
    rintro rfl
    exact hl (List.mem_of_mem_take hb)
  rw [namecmp, strncmp_eq_zero, hall hs, hall ht, List.take_of_length_le hshort]
  exact eq_comm

/-- The name of an entry has at most `DIRSIZ` bytes, and no terminator. -/
theorem decode_name (m : Mem) : (Dirent.decode m).name.length ≤ 14 ∧ 0 ∉ (Dirent.decode m).name := by
  constructor
  · refine (List.takeWhile_prefix _).length_le.trans ?_
    simp
  · intro hmem
    simpa using List.mem_takeWhile_imp hmem

end Names

section Mapped

variable {s : Bufs} {ip : Inode}

/-- Every block that the size of the inode covers is there. -/
def Mapped (disk : Nat → Sector) (n : Dinode) : Prop :=
  ∀ bn, bn < (n.size.toNat + (bsize - 1)) / bsize → n.addr disk (blockPlace bn) ≠ 0

/-- `readi` of a file whose blocks are there. -/
theorem readi_of_mapped (hbusy : s.busy = []) (hsize : ip.size.toNat ≤ maxfile * bsize)
    (hmap : Mapped s.disk ip.toDinode) (dev : Devsw) (off n : UInt32) :
    ∃ r, readi dev ip off n s = .ok ((r, ip), s) := by
  unfold readi
  by_cases hdev : ip.type = tDev
  · rw [if_pos hdev]
    split
    · exact ⟨_, rfl⟩
    · cases dev.read ip.major with
      | none => exact ⟨_, rfl⟩
      | some read => exact ⟨_, rfl⟩
  rw [if_neg hdev]
  by_cases hoff : off > ip.size ∨ off + n < off
  · rw [if_pos hoff]
    exact ⟨_, rfl⟩
  rw [if_neg hoff]
  have hcount : off.toNat + (if off + n > ip.size then ip.size - off else n).toNat ≤ ip.size.toNat := by
    have hle : off ≤ ip.size := UInt32.not_lt.mp fun hc => hoff (.inl hc)
    have hwrap : off ≤ off + n := UInt32.not_lt.mp fun hc => hoff (.inr hc)
    rw [UInt32.le_iff_toNat_le] at hle hwrap
    split
    · rw [UInt32.toNat_sub_of_le _ _ (UInt32.le_iff_toNat_le.mpr hle)]
      omega
    · rename_i hin
      have hin' : off + n ≤ ip.size := UInt32.not_lt.mp hin
      rw [UInt32.le_iff_toNat_le] at hin'
      have hadd := UInt32.toNat_add off n
      have hlt := off.toNat_lt
      have hlt' := n.toNat_lt
      omega
  generalize (if off + n > ip.size then ip.size - off else n) = m at hcount ⊢
  have hpieces : ∀ r ∈ pieces m.toNat off.toNat m.toNat, r.1 / bsize < maxfile ∧
      ip.addr s.disk (blockPlace (r.1 / bsize)) ≠ 0 ∧ r.1 % bsize + r.2 ≤ bsize := by
    intro r hr
    have hmem := mem_pieces hr
    simp only [maxfile, bsize] at hsize ⊢
    refine ⟨by omega, hmap _ ?_, hmem.2.2.1⟩
    simp only [bsize]
    omega
  obtain ⟨good, out, hrun, _⟩ := readiLoop_ok hbusy hpieces
  rw [bind_of_ok hrun]
  cases good with
  | true => exact ⟨_, rfl⟩
  | false => exact ⟨_, rfl⟩

/-- What `dirlookup` finds in block `bn`: number and offset of the entry. -/
def blockEntry (disk : Nat → Sector) (ip : Inode) (name : List UInt8) (bn : Nat) : Option (UInt16 × Nat) :=
  ((disk (ip.addr disk (blockPlace bn))).findEntry name).map fun k =>
    (((disk (ip.addr disk (blockPlace bn))).dirent k).inum, bn * bsize + 16 * k)

/-- The loop of `dirlookup` over blocks that are there, and then over the rest. -/
theorem dirlookupLoop_append (hbusy : s.busy = []) {bns : List Nat} (rest : List Nat) (name : List UInt8)
    (hbns : ∀ bn ∈ bns, bn < maxfile ∧ ip.addr s.disk (blockPlace bn) ≠ 0) :
    dirlookupLoop name ip (bns ++ rest) s =
      match bns.findSome? (blockEntry s.disk ip name) with
      | some found => .ok ((some found, ip), s)
      | none => dirlookupLoop name ip rest s := by
  induction bns with
  | nil => rfl
  | cons bn bns ih =>
      obtain ⟨hbn, ha⟩ := hbns bn List.mem_cons_self
      have hnot : ip.addr s.disk (blockPlace bn) ∉ s.busy := by
        rw [hbusy]
        exact List.not_mem_nil
      have haddr : (addrOf ip.type (ip.word s.disk (blockPlace bn))).toNat =
          ip.addr s.disk (blockPlace bn) := rfl
      rw [List.cons_append, dirlookupLoop, bind_of_ok (bmap_assigned hbusy hbn ha)]
      simp only [haddr]
      rw [bind_of_ok (bread_ok hnot (by rw [hbusy]; decide)), List.findSome?_cons]
      cases hfind : Sector.findEntry (s.disk (ip.addr s.disk (blockPlace bn))) name with
      | some k =>
          have hentry : blockEntry s.disk ip name bn =
              some (((s.disk (ip.addr s.disk (blockPlace bn))).dirent k).inum, bn * bsize + 16 * k) := by
            rw [blockEntry, hfind, Option.map_some]
          simp only [hentry]
          rw [bind_of_ok (brelse_ok List.mem_cons_self), List.erase_cons_head]
          rfl
      | none =>
          have hentry : blockEntry s.disk ip name bn = none := by
            rw [blockEntry, hfind, Option.map_none]
          simp only [hentry]
          rw [bind_of_ok (brelse_ok List.mem_cons_self), List.erase_cons_head]
          exact ih fun bn hbn => hbns bn (List.mem_cons_of_mem _ hbn)

/-- The loop of `dirlookup` over a directory whose blocks are there. -/
theorem dirlookupLoop_of_mapped (hbusy : s.busy = []) (hsize : ip.size.toNat ≤ maxfile * bsize)
    (hmap : Mapped s.disk ip.toDinode) (name : List UInt8) :
    ∃ r, dirlookupLoop name ip (List.range ((ip.size.toNat + (bsize - 1)) / bsize)) s =
      .ok ((r, ip), s) := by
  have hbns : ∀ bn ∈ List.range ((ip.size.toNat + (bsize - 1)) / bsize),
      bn < maxfile ∧ ip.addr s.disk (blockPlace bn) ≠ 0 := by
    intro bn hbn
    have hlt := List.mem_range.mp hbn
    refine ⟨?_, hmap bn hlt⟩
    simp only [maxfile, bsize] at hsize hlt ⊢
    omega
  have hrun := dirlookupLoop_append hbusy [] name hbns
  rw [List.append_nil] at hrun
  rw [hrun]
  split
  · exact ⟨_, rfl⟩
  · exact ⟨_, rfl⟩

end Mapped

end Xv6
end LfsXv6
