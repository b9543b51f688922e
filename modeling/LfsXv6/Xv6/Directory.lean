import LfsXv6.Xv6.Files
import LfsXv6.Xv6.Lookup

/-!
# Directory — directories as tables from names to inode numbers

A directory whose blocks are all there is a list of entries, and `dirlookup` finds the first one with
the name.  `dirlink` fills the first empty entry, or the one behind the last; the other entries, and all
other files, stay as they are.
-/

namespace LfsXv6
namespace Xv6

open Lib Prog

/-! ## Entries -/

/-- The number of entries of a directory of the greatest size. -/
abbrev maxentries : Nat := 32 * maxfile

/-- A name in a buffer is followed by a zero, unless it fills the buffer. -/
theorem cname_eq {m : Mem} {name : List UInt8} (hshort : name.length ≤ 14) (hzero : 0 ∉ name)
    (hbytes : ∀ o, o < name.length → m o = name.getD o 0) (hend : name.length < 14 → m name.length = 0) :
    cname m = name := by
  have htake : ((List.range 14).map m).take name.length = name := by
    refine List.ext_getElem (by simpa using hshort) ?_
    intro o ho ho'
    rw [List.getElem_take, List.getElem_map, List.getElem_range, hbytes o ho', List.getD_eq_getElem _ _ ho']
  have hstop : (((List.range 14).map m).drop name.length).takeWhile (· != 0) = [] := by
    by_cases hlt : name.length < 14
    · rw [List.drop_eq_getElem_cons (by simpa using hlt), List.takeWhile_cons_of_neg]
      simpa using hend hlt
    · rw [List.drop_eq_nil_of_le (by simpa using hlt), List.takeWhile_nil]
  have hpos : ∀ b ∈ name, (b != 0) = true := by
    intro b hb
    rw [bne_iff_ne]
    rintro rfl
    exact hzero hb
  rw [cname, ← List.take_append_drop name.length ((List.range 14).map m), htake,
    List.takeWhile_append_of_pos hpos, hstop, List.append_nil]

theorem Dirent.decode_congr {m m' : Mem} (h : ∀ o, o < 16 → m o = m' o) :
    Dirent.decode m = Dirent.decode m' := by
  have hname : cname (fun o => m (2 + o)) = cname fun o => m' (2 + o) := by
    unfold cname
    congr 1
    refine List.map_congr_left ?_
    intro o ho
    have := List.mem_range.mp ho
    exact h _ (by omega)
  simp only [Dirent.decode, h 0 (by decide), h 1 (by decide), hname]

/-- What `dirlink` wrote is read back. -/
theorem Dirent.decode_encode {m : Mem} {e : Dirent} (hshort : e.name.length ≤ 14) (hzero : 0 ∉ e.name)
    (h : ∀ o, o < 16 → m o = e.encode.getD o 0) : Dirent.decode m = e := by
  have hbytes : ∀ o, o < 14 →
      m (2 + o) = (e.name ++ List.replicate (14 - e.name.length) 0).getD o 0 := by
    intro o ho
    have htake : e.name.take 14 = e.name := List.take_of_length_le hshort
    rw [h _ (by omega), Dirent.encode, htake, List.getD_append_right _ _ _ _ (by simp)]
    congr 1
    simp
  have hname : cname (fun o => m (2 + o)) = e.name := by
    refine cname_eq hshort hzero ?_ ?_
    · intro o ho
      rw [hbytes o (by omega), List.getD_append _ _ _ _ ho]
    · intro hlt
      rw [hbytes _ hlt, List.getD_append_right _ _ _ _ (le_refl _)]
      simp
  have hlow : m 0 = UInt8.ofNat e.inum.toNat := h 0 (by decide)
  have hhigh : m 1 = UInt8.ofNat (e.inum.toNat / 256) := h 1 (by decide)
  have hinum : UInt16.ofNat ((m 0).toNat + 256 * (m 1).toNat) = e.inum := by
    have hlt := e.inum.toNat_lt
    have hsum : (m 0).toNat + 256 * (m 1).toNat = e.inum.toNat := by
      rw [hlow, hhigh, UInt8.toNat_ofNat', UInt8.toNat_ofNat']
      omega
    rw [hsum, UInt16.ofNat_toNat]
  simp only [Dirent.decode, hname, hinum]

/-- Entry `k` of a directory. -/
def entryAt (disk : Nat → Sector) (n : Dinode) (k : Nat) : Dirent :=
  Dirent.decode fun o => byteAt disk n (16 * k + o)

/-- Entry `k` is in use and has this name. -/
def Named (disk : Nat → Sector) (n : Dinode) (name : List UInt8) (k : Nat) : Prop :=
  (entryAt disk n k).inum ≠ 0 ∧ (entryAt disk n k).name = name

instance (disk : Nat → Sector) (n : Dinode) (name : List UInt8) : DecidablePred (Named disk n name) :=
  fun _ => inferInstanceAs (Decidable (_ ∧ _))

/-- The first of the first `m` entries with a name. -/
@[irreducible] def indexAmong (m : Nat) (disk : Nat → Sector) (n : Dinode) (name : List UInt8) :
    Option Nat := (List.range m).find? fun k => Named disk n name k

/-- The first entry with a name. -/
def indexOf (disk : Nat → Sector) (n : Dinode) (name : List UInt8) : Option Nat :=
  indexAmong maxentries disk n name

/-- The inode number under a name among the first `m` entries: that of the first one with this name. -/
@[irreducible] def numberAmong (m : Nat) (disk : Nat → Sector) (n : Dinode) (name : List UInt8) :
    Option Nat :=
  ((List.range m).find? fun k => Named disk n name k).map fun k => (entryAt disk n k).inum.toNat

/-- The inode number under a name. -/
def numberOf (disk : Nat → Sector) (n : Dinode) (name : List UInt8) : Option Nat :=
  numberAmong maxentries disk n name

/-- A directory without holes, with zeroes after its end. -/
structure Table (disk : Nat → Sector) (n : Dinode) : Prop where
  mapped : Mapped disk n
  bound : n.size.toNat ≤ maxfile * bsize
  beyond : ∀ x, n.size.toNat ≤ x → x / bsize < maxfile → byteAt disk n x = 0

section Entries

variable {disk disk' : Nat → Sector} {n : Dinode} {ip : Inode} {name : List UInt8} {k : Nat}

theorem SameFile.entryAt_eq (h : SameFile disk disk' n) (k : Nat) :
    entryAt disk' n k = entryAt disk n k := by
  simp only [entryAt, h.byteAt_eq]

theorem SameFile.named_eq (h : SameFile disk disk' n) (name : List UInt8) (k : Nat) :
    Named disk' n name k ↔ Named disk n name k := by
  rw [Named, h.entryAt_eq, Named]

theorem SameFile.numberOf_eq (h : SameFile disk disk' n) (name : List UInt8) :
    numberOf disk' n name = numberOf disk n name := by
  simp only [numberOf, numberAmong, h.named_eq, h.entryAt_eq]

theorem SameFile.table (h : SameFile disk disk' n) (ht : Table disk n) : Table disk' n := by
  refine ⟨?_, ht.bound, ?_⟩
  · intro bn hbn
    rw [h.addr]
    exact ht.mapped bn hbn
  · intro x hx hbn
    rw [h.byteAt_eq]
    exact ht.beyond x hx hbn

theorem indexOf_eq_none : indexOf disk n name = none ↔ ∀ k, k < maxentries → ¬ Named disk n name k := by
  rw [indexOf, indexAmong, List.find?_eq_none]
  simp only [List.mem_range, decide_eq_true_eq]

theorem indexOf_eq_some : indexOf disk n name = some k ↔
    k < maxentries ∧ Named disk n name k ∧ ∀ j, j < k → ¬ Named disk n name j := by
  simp only [indexOf, indexAmong, List.find?_range_eq_some, List.mem_range, decide_eq_true_eq,
    Bool.not_eq_eq_eq_not, Bool.not_true, decide_eq_false_iff_not]
  exact and_left_comm

theorem numberOf_eq (disk : Nat → Sector) (n : Dinode) (name : List UInt8) :
    numberOf disk n name = (indexOf disk n name).map fun k => (entryAt disk n k).inum.toNat := by
  rw [numberOf, numberAmong, indexOf, indexAmong]

theorem numberOf_eq_none : numberOf disk n name = none ↔ ∀ k, k < maxentries → ¬ Named disk n name k := by
  rw [numberOf_eq, Option.map_eq_none_iff, indexOf_eq_none]

theorem numberOf_eq_some {i : Nat} : numberOf disk n name = some i ↔
    ∃ k, k < maxentries ∧ Named disk n name k ∧ (∀ j, j < k → ¬ Named disk n name j) ∧
      (entryAt disk n k).inum.toNat = i := by
  simp only [numberOf_eq, Option.map_eq_some_iff, indexOf_eq_some, and_assoc]

/-- An entry in memory is an entry of the file. -/
theorem dirent_eq {bn : Nat} (ha : ip.addr disk (blockPlace bn) ≠ 0) (hk : k < 32) :
    (disk (ip.addr disk (blockPlace bn))).dirent k = entryAt disk ip.toDinode (32 * bn + k) := by
  refine Dirent.decode_congr ?_
  intro o ho
  have hdiv : (16 * (32 * bn + k) + o) / bsize = bn := by
    simp only [bsize]
    omega
  have hmod : (16 * (32 * bn + k) + o) % bsize = 16 * k + o := by
    simp only [bsize]
    omega
  rw [byteAt, hdiv, hmod, if_neg ha]

/-- Entries past the end are empty. -/
theorem Table.inum_beyond (h : Table disk n) (hk : k < maxentries) (hsize : n.size.toNat ≤ 16 * k) :
    (entryAt disk n k).inum = 0 := by
  have hzero : ∀ o, o < 16 → byteAt disk n (16 * k + o) = 0 := by
    intro o ho
    refine h.beyond _ (by omega) ?_
    simp only [maxentries, maxfile, bsize] at hk ⊢
    omega
  simp only [entryAt, Dirent.decode, hzero 0 (by decide), hzero 1 (by decide)]
  rfl

theorem findSome?_range_eq_some {β : Type} {f : Nat → Option β} {m : Nat} {b : β}
    (h : (List.range m).findSome? f = some b) : ∃ a, a < m ∧ f a = some b ∧ ∀ j, j < a → f j = none := by
  induction m with
  | zero => cases h
  | succ m ih =>
      rw [List.range_succ, List.findSome?_append] at h
      cases hm : (List.range m).findSome? f with
      | some c =>
          rw [hm, Option.some_or] at h
          obtain ⟨a, ha, hfa, hfirst⟩ := ih (hm.trans h)
          exact ⟨a, by omega, hfa, hfirst⟩
      | none =>
          rw [hm, Option.none_or, List.findSome?_singleton] at h
          refine ⟨m, by omega, h, ?_⟩
          intro j hj
          exact List.findSome?_eq_none_iff.mp hm j (List.mem_range.mpr hj)

/-- An entry in memory matches a name. -/
theorem findEntry_iff {bn : Nat} (ha : ip.addr disk (blockPlace bn) ≠ 0) (hzero : 0 ∉ name) (hk : k < 32) :
    (((disk (ip.addr disk (blockPlace bn))).dirent k).inum ≠ 0 ∧
      namecmp name ((disk (ip.addr disk (blockPlace bn))).dirent k).name = 0) ↔
      Named disk ip.toDinode (name.take 14) (32 * bn + k) := by
  obtain ⟨hshort, hend⟩ := decode_name fun o => (disk (ip.addr disk (blockPlace bn))) (16 * k + o)
  rw [Sector.dirent, namecmp_eq_zero hzero hend hshort, Named, ← dirent_eq ha hk, Sector.dirent]

/-- The entries of the blocks are the entries of the directory. -/
theorem Table.blockEntry_eq (h : Table disk ip.toDinode) (hzero : 0 ∉ name) :
    (List.range ((ip.size.toNat + (bsize - 1)) / bsize)).findSome? (blockEntry disk ip name) =
      (indexOf disk ip.toDinode (name.take 14)).map
        fun k => ((entryAt disk ip.toDinode k).inum, 16 * k) := by
  have hbound := h.bound
  have hbn : ∀ {bn}, bn < (ip.size.toNat + (bsize - 1)) / bsize → bn < maxfile := by
    intro bn hbn
    simp only [maxfile, bsize] at hbound hbn ⊢
    omega
  have hnone : ∀ {bn}, bn < (ip.size.toNat + (bsize - 1)) / bsize → blockEntry disk ip name bn = none →
      ∀ k, k < 32 → ¬ Named disk ip.toDinode (name.take 14) (32 * bn + k) := by
    intro bn hlt hb k hk
    rw [blockEntry, Option.map_eq_none_iff, Sector.findEntry, List.find?_eq_none] at hb
    have hk' := hb k (List.mem_range.mpr hk)
    rw [decide_eq_true_eq, findEntry_iff (h.mapped bn hlt) hzero hk] at hk'
    exact hk'
  cases hfind : (List.range ((ip.size.toNat + (bsize - 1)) / bsize)).findSome? (blockEntry disk ip name) with
  | none =>
      symm
      rw [Option.map_eq_none_iff, indexOf_eq_none]
      intro k hk hnamed
      by_cases hin : k / 32 < (ip.size.toNat + (bsize - 1)) / bsize
      · have hb := List.findSome?_eq_none_iff.mp hfind _ (List.mem_range.mpr hin)
        refine hnone hin hb (k % 32) (Nat.mod_lt _ (by decide)) ?_
        rwa [Nat.div_add_mod]
      · refine hnamed.1 (h.inum_beyond hk ?_)
        simp only [bsize] at hin
        omega
  | some e =>
      obtain ⟨bn, hlt, hb, hbefore⟩ := findSome?_range_eq_some hfind
      rw [blockEntry, Option.map_eq_some_iff] at hb
      obtain ⟨k, hk, rfl⟩ := hb
      rw [Sector.findEntry, List.find?_range_eq_some] at hk
      obtain ⟨hnamed, hk32, hfirst⟩ := hk
      have hk32 := List.mem_range.mp hk32
      rw [decide_eq_true_eq, findEntry_iff (h.mapped bn hlt) hzero hk32] at hnamed
      have hmax := hbn hlt
      have hindex : indexOf disk ip.toDinode (name.take 14) = some (32 * bn + k) := by
        refine indexOf_eq_some.mpr ⟨?_, hnamed, ?_⟩
        · simp only [maxentries, maxfile] at hmax ⊢
          omega
        · intro j hj
          by_cases hjb : j / 32 = bn
          · have hj' := hfirst (j % 32) (by omega)
            have hmod : j % 32 < 32 := Nat.mod_lt _ (by decide)
            rwa [Bool.not_eq_true', decide_eq_false_iff_not, findEntry_iff (h.mapped bn hlt) hzero hmod,
              ← hjb, Nat.div_add_mod] at hj'
          · have hj' := hnone (by omega) (hbefore (j / 32) (by omega)) (j % 32) (Nat.mod_lt _ (by decide))
            rwa [Nat.div_add_mod] at hj'
      have hoff : bn * bsize + 16 * k = 16 * (32 * bn + k) := by
        simp only [bsize]
        omega
      rw [hindex, Option.map_some, dirent_eq (h.mapped bn hlt) hk32, hoff]

end Entries

/-! ## `dirlookup` -/

section Lookup

variable {s t : Kernel} {dp : Slot} {name : List UInt8}

/-- `dirlookup` finds the first entry with the name and takes a reference to its inode. -/
theorem dirlookup_eq (hbusy : s.bufs.busy = []) (h : Table s.bufs.disk (s.icache dp).node.toDinode)
    (htype : (s.icache dp).node.type = tDir) (hzero : 0 ∉ name) : dirlookup dp name s =
      match indexOf s.bufs.disk (s.icache dp).node.toDinode (name.take 14) with
      | none => .ok (none, s)
      | some k => (iget (entryAt s.bufs.disk (s.icache dp).node.toDinode k).inum.toNat s).map
          fun r => (some (r.1, 16 * k), r.2) := by
  have hbns : ∀ bn ∈ List.range (((s.icache dp).node.size.toNat + (bsize - 1)) / bsize),
      bn < maxfile ∧ (s.icache dp).node.addr s.bufs.disk (blockPlace bn) ≠ 0 := by
    intro bn hbn
    have hlt := List.mem_range.mp hbn
    have hbound := h.bound
    refine ⟨?_, h.mapped bn hlt⟩
    simp only [maxfile, bsize] at hbound hlt ⊢
    omega
  have hloop := dirlookupLoop_append hbusy [] name hbns
  rw [List.append_nil, h.blockEntry_eq hzero] at hloop
  have hsame : ({ s with bufs := s.bufs } : Kernel).set dp
      { s.icache dp with node := (s.icache dp).node } = s := by
    simp [Kernel.set]
  have hlook : look (fun s : Kernel => s.icache dp) s = .ok (s.icache dp, s) := rfl
  unfold dirlookup
  rw [bind_of_ok hlook, if_neg (not_not.mpr htype)]
  cases hindex : indexOf s.bufs.disk (s.icache dp).node.toDinode (name.take 14) with
  | none =>
      rw [hindex] at hloop
      rw [bind_of_ok (withNode_ok hloop), hsame]
      rfl
  | some k =>
      rw [hindex] at hloop
      rw [bind_of_ok (withNode_ok hloop), hsame]
      simp only
      cases hget : iget (entryAt s.bufs.disk (s.icache dp).node.toDinode k).inum.toNat s with
      | error e =>
          rw [bind_of_error hget]
          rfl
      | ok r =>
          rw [bind_of_ok hget]
          rfl

/-- `dirlookup` finds the number under the name, and changes nothing. -/
theorem dirlookup_run (hbusy : s.bufs.busy = []) (h : Table s.bufs.disk (s.icache dp).node.toDinode)
    (hshort : name.length ≤ 14) (hzero : 0 ∉ name)
    {res : Option (Slot × Nat)} (hrun : dirlookup dp name s = .ok (res, t)) :
    (s.icache dp).node.type = tDir ∧
      ((numberOf s.bufs.disk (s.icache dp).node.toDinode name = none ∧ res = none ∧ t = s) ∨
        ∃ i r off, numberOf s.bufs.disk (s.icache dp).node.toDinode name = some i ∧
          res = some (r, off) ∧ iget i s = .ok (r, t)) := by
  have htype : (s.icache dp).node.type = tDir := by
    by_contra hnot
    unfold dirlookup at hrun
    obtain ⟨c, u, hlook, hrun⟩ := bind_eq_ok hrun
    obtain ⟨rfl, rfl⟩ := look_eq_ok hlook
    rw [if_pos hnot] at hrun
    cases hrun
  refine ⟨htype, ?_⟩
  rw [dirlookup_eq hbusy h htype hzero, List.take_of_length_le hshort] at hrun
  rw [numberOf_eq]
  cases hindex : indexOf s.bufs.disk (s.icache dp).node.toDinode name with
  | none =>
      rw [hindex] at hrun
      cases hrun
      exact .inl ⟨rfl, rfl, rfl⟩
  | some k =>
      rw [hindex] at hrun
      simp only at hrun
      cases hget : iget (entryAt s.bufs.disk (s.icache dp).node.toDinode k).inum.toNat s with
      | error e =>
          rw [hget] at hrun
          cases hrun
      | ok r =>
          rw [hget] at hrun
          cases hrun
          exact .inr ⟨_, r.1, 16 * k, rfl, rfl, hget⟩

end Lookup

/-! ## `dirlink` -/

/-- The inode `d` of a directory gets an entry: an empty one is filled, the other ones are as before. -/
structure Entered (sb : Superblock) (disk : Nat → Sector) (d : Inode) (e : Dirent)
    (disk' : Nat → Sector) (d' : Inode) : Prop where
  written : Written sb disk d disk' d'
  nlink : d'.nlink = d.nlink
  table : Table disk' d'.toDinode
  entry : ∃ k, k < maxentries ∧ (entryAt disk d.toDinode k).inum = 0 ∧
    entryAt disk' d'.toDinode k = e ∧
    ∀ j, j < maxentries → j ≠ k → entryAt disk' d'.toDinode j = entryAt disk d.toDinode j

section Link

variable {sb : Superblock} {s t : Bufs} {ip node : Inode} {dev : Devsw} {e : Dirent}

theorem length_encode (e : Dirent) : e.encode.length = 16 := by
  simp only [Dirent.encode, List.length_append, List.length_cons, List.length_nil, List.length_take,
    List.length_replicate]
  omega

/-- `readi` of an entry. -/
theorem readi_entry (dev : Devsw) (hbusy : s.busy = []) (hdir : ip.type = tDir)
    (h : Table s.disk ip.toDinode) {k : Nat} (hin : 16 * k < ip.size.toNat) :
    ∃ r out, readi dev ip (UInt32.ofNat (16 * k)) 16 s = .ok (((r, out), ip), s) ∧
      (r = 16 ↔ 16 * k + 16 ≤ ip.size.toNat) ∧
      (r = 16 → (Dirent.decode fun o => out.getD o 0) = entryAt s.disk ip.toDinode k) := by
  have hbound := h.bound
  simp only [maxfile, bsize] at hbound
  have hoff : (UInt32.ofNat (16 * k)).toNat = 16 * k := by
    rw [UInt32.toNat_ofNat']
    omega
  have hdev : ip.type ≠ tDev := by
    rw [hdir]
    decide
  have hplain : ip.type ≠ tChecked := by
    rw [hdir]
    decide
  have hmap : ∀ bn, bn * bsize < ip.size.toNat →
      bn < maxfile ∧ ip.addr s.disk (blockPlace bn) ≠ 0 := by
    intro bn hbn
    refine ⟨?_, h.mapped bn ?_⟩
    · simp only [maxfile, bsize] at hbn ⊢
      omega
    · simp only [bsize] at hbn ⊢
      omega
  have h16 : (16 : UInt32).toNat = 16 := rfl
  obtain ⟨r, out, hread, hfail, hout⟩ := readi_ok dev (UInt32.ofNat (16 * k)) 16 hbusy hdev
    hmap (by omega) (by omega) rfl
  obtain ⟨hlen, hbytes⟩ := hout fun hc => hfail.mp hc fun htype => absurd htype hplain
  rw [hoff, h16] at hlen hbytes
  have h16' : (16 : Int32).toInt = 16 := rfl
  have hfull : r = 16 ↔ 16 * k + 16 ≤ ip.size.toNat := by
    rw [← Int32.toInt_inj, hlen, h16']
    omega
  refine ⟨r, out, hread, hfull, fun hr => ?_⟩
  have hmin : min 16 (ip.size.toNat - 16 * k) = 16 := by
    have := hfull.mp hr
    omega
  refine Dirent.decode_congr ?_
  intro o ho
  rw [hbytes, hmin, List.getD_eq_getElem _ _ (by simpa using ho)]
  simp

/-- The entry that `dirlink` fills: an empty one, or the one behind the last. -/
theorem dirlinkLoop_run (hbusy : s.busy = []) (hdir : ip.type = tDir) (h : Table s.disk ip.toDinode)
    {stop off : Nat} {offs : List Nat} (hoffs : ∀ o ∈ offs, ∃ k, o = 16 * k ∧ o < ip.size.toNat)
    (hrun : dirlinkLoop dev ip stop offs s = .ok ((off, node), t)) :
    node = ip ∧ t = s ∧ (off = stop ∨
      ∃ k, off = 16 * k ∧ off < ip.size.toNat ∧ (entryAt s.disk ip.toDinode k).inum = 0) := by
  induction offs with
  | nil =>
      cases hrun
      exact ⟨rfl, rfl, .inl rfl⟩
  | cons o offs ih =>
      obtain ⟨k, rfl, hin⟩ := hoffs o List.mem_cons_self
      obtain ⟨r, out, hread, _, hentry⟩ := readi_entry dev hbusy hdir h hin
      unfold dirlinkLoop at hrun
      rw [bind_of_ok hread] at hrun
      simp only at hrun
      split at hrun
      · cases hrun
      rename_i hret
      rw [hentry (not_not.mp hret)] at hrun
      split at hrun
      · rename_i hempty
        cases hrun
        exact ⟨rfl, rfl, .inr ⟨k, rfl, hin, hempty⟩⟩
      · exact ih (fun o ho => hoffs o (List.mem_cons_of_mem _ ho)) hrun

/-- The search returns if no entry is cut off by the end. -/
theorem dirlinkLoop_returns (dev : Devsw) (hbusy : s.busy = []) (hdir : ip.type = tDir)
    (h : Table s.disk ip.toDinode) (stop : Nat) {offs : List Nat}
    (hoffs : ∀ o ∈ offs, ∃ k, o = 16 * k ∧ o + 16 ≤ ip.size.toNat) :
    ∃ r, dirlinkLoop dev ip stop offs s = .ok r := by
  induction offs with
  | nil => exact ⟨_, rfl⟩
  | cons o offs ih =>
      obtain ⟨k, rfl, hin⟩ := hoffs o List.mem_cons_self
      obtain ⟨r, out, hread, hfull, _⟩ := readi_entry dev hbusy hdir h (by omega : 16 * k < _)
      unfold dirlinkLoop
      rw [bind_of_ok hread]
      simp only
      rw [if_neg (not_not.mpr (hfull.mpr hin))]
      split
      · exact ⟨_, rfl⟩
      · exact ih fun o ho => hoffs o (List.mem_cons_of_mem _ ho)

/-- The 16 bytes of entry `k` were written, and no other entry has changed. -/
structure EntryWritten (sb : Superblock) (disk : Nat → Sector) (d : Inode) (k : Nat) (bytes : List UInt8)
    (disk' : Nat → Sector) (d' : Inode) : Prop where
  written : Written sb disk d disk' d'
  nlink : d'.nlink = d.nlink
  last : k < maxentries
  size : d'.size.toNat = max d.size.toNat (16 * k + 16)
  table : Table disk' d'.toDinode
  bytes : ∀ o, o < 16 → byteAt disk' d'.toDinode (16 * k + o) = bytes.getD o 0
  others : ∀ j, j < maxentries → j ≠ k → entryAt disk' d'.toDinode j = entryAt disk d.toDinode j

/-- `writei` over an entry of a directory, which may have holes. -/
theorem writei_entry_stored (hcons : Consistent sb s.disk) (hbusy : s.busy = [])
    (hnum : ip.inum < sb.ninodes.toNat) (hsync : dnode s.disk ip.inum = ip.toDinode) (hdir : ip.type = tDir)
    (hbound : ip.size.toNat ≤ maxfile * bsize) {bytes : List UInt8} (hlen : bytes.length = 16) {k : Nat}
    (hk : 16 * k < 2 ^ 32)
    (hrun : writei dev ip bytes (UInt32.ofNat (16 * k)) 16 s = .ok ((16, node), t)) :
    t.busy = [] ∧ Written sb s.disk ip t.disk node ∧ node.nlink = ip.nlink ∧ k < maxentries ∧
      16 * k ≤ ip.size.toNat ∧ node.size.toNat = max ip.size.toNat (16 * k + 16) ∧
      Stored s.disk ip (16 * k) bytes t.disk node := by
  have htype : ip.type ≠ 0 := by
    rw [hdir]
    decide
  have hdev : ip.type ≠ tDev := by
    rw [hdir]
    decide
  obtain ⟨hidle, hwritten⟩ := writei_written hcons hbusy hnum htype hsync hrun
  have hh := hcons.holding hnum htype hsync
  have hoff : (UInt32.ofNat (16 * k)).toNat = 16 * k := by
    rw [UInt32.toNat_ofNat']
    omega
  simp only [maxfile, bsize] at hbound
  have hnot : ¬ (UInt32.ofNat (16 * k) > ip.size ∨ UInt32.ofNat (16 * k) + 16 < UInt32.ofNat (16 * k)) := by
    intro href
    unfold writei at hrun
    rw [if_neg hdev, if_pos href] at hrun
    cases hrun
  have hle : 16 * k ≤ ip.size.toNat := by
    have hgt : ¬ UInt32.ofNat (16 * k) > ip.size := fun hc => hnot (.inl hc)
    rw [gt_iff_lt, UInt32.lt_iff_toNat_lt, hoff] at hgt
    omega
  have h16 : (16 : UInt32).toNat = 16 := rfl
  have hcount : (writeCount (UInt32.ofNat (16 * k)) 16).toNat = min 16 (71680 - 16 * k) := by
    have hcap : (writeCount (UInt32.ofNat (16 * k)) 16).toNat =
        min (16 : UInt32).toNat (maxfile * bsize - (UInt32.ofNat (16 * k)).toNat) :=
      writeCount_toNat (by simp only [maxfile, bsize]; omega) (by omega)
    rw [hcap, hoff, h16]
    rfl
  have hends : Ends (writei dev ip bytes (UInt32.ofNat (16 * k)) 16) s True _ :=
    writei_stored hh hbusy hdev hnot (by omega) fun _ => trivial
  obtain ⟨hret, _, disk, ip', hh', hsame, hst, hr, ht⟩ := hends.of_eq_ok hrun
  simp only at hret hr
  have hall : (writeCount (UInt32.ofNat (16 * k)) 16).toNat = 16 := by
    have hval := congrArg Int32.toInt hret
    rw [toInt_toInt32 (by omega)] at hval
    have hsixteen : (16 : Int32).toInt = 16 := rfl
    omega
  have hgrown : Holding sb disk (grown ip' (UInt32.ofNat (16 * k)) (writeCount (UInt32.ofNat (16 * k)) 16)) :=
    hh'.of_words grown_inum grown_type grown_addrs
  have hstored := hst.finish hgrown
  rw [← hr, ← ht, hall, List.take_of_length_le (by omega), hoff] at hstored
  have hsize : node.size.toNat = max ip.size.toNat (16 * k + 16) := by
    have hsize' : ip'.size = ip.size := by rw [hsame]
    rw [hr, grown_size (by omega) (by rw [hsize']; omega), hsize', hall, hoff]
  have hlast : k < maxentries := by
    simp only [maxentries, maxfile]
    omega
  have hnlink : node.nlink = ip.nlink := by
    have hnlink' : ip'.nlink = ip.nlink := by rw [hsame]
    rw [hr, ← hnlink']
    unfold grown
    split <;> rfl
  exact ⟨hidle, hwritten, hnlink, hlast, hle, hsize, hstored⟩

section Bytes

variable {disk disk' : Nat → Sector} {d d' : Inode} {bytes : List UInt8} {k j o : Nat}

theorem entry_place (hj : j < maxentries) (ho : o < 16) : (16 * j + o) / bsize < maxfile := by
  simp only [maxentries, maxfile, bsize] at hj ⊢
  omega

theorem Stored.entry_byte (h : Stored disk d (16 * k) bytes disk' d') (hlen : bytes.length = 16)
    (hk : k < maxentries) (ho : o < 16) : byteAt disk' d'.toDinode (16 * k + o) = bytes.getD o 0 := by
  rw [h.byte _ (entry_place hk ho), hlen, if_pos (by omega), Nat.add_sub_cancel_left]

theorem Stored.entryAt_other (h : Stored disk d (16 * k) bytes disk' d') (hlen : bytes.length = 16)
    (hj : j < maxentries) (hne : j ≠ k) : entryAt disk' d'.toDinode j = entryAt disk d.toDinode j := by
  refine Dirent.decode_congr ?_
  intro o ho
  rw [h.byte _ (entry_place hj ho), hlen, if_neg (by omega)]

/-- The blocks up to the written entry are there, if those before it were. -/
theorem Stored.table {z z' : UInt32} (h : Stored disk d (16 * k) bytes disk' d') (hlen : bytes.length = 16)
    (hk : k < maxentries) (ht : Table disk { d.toDinode with size := z }) (hle : 16 * k ≤ z.toNat)
    (hz : z'.toNat = max z.toNat (16 * k + 16)) : Table disk' { d'.toDinode with size := z' } := by
  have hbound : z.toNat ≤ maxfile * bsize := ht.bound
  simp only [maxfile, bsize] at hbound
  refine ⟨?_, ?_, ?_⟩
  · intro bn hbn
    have hbn : bn < (z'.toNat + (bsize - 1)) / bsize := hbn
    rw [hz] at hbn
    have hmax : bn < maxfile := by
      simp only [maxentries, maxfile, bsize] at hk hbn ⊢
      omega
    refine h.assigned bn hmax ?_
    by_cases hin : bn < (z.toNat + (bsize - 1)) / bsize
    · exact .inl (ht.mapped bn hin)
    · refine .inr ⟨bn * bsize, ?_, ?_, Nat.mul_div_cancel _ (by decide)⟩
      · simp only [bsize] at hin ⊢
        omega
      · rw [hlen]
        simp only [bsize] at hin hbn ⊢
        omega
  · show z'.toNat ≤ maxfile * bsize
    rw [hz]
    simp only [maxentries, maxfile, bsize] at hk ⊢
    omega
  · intro x hx hbn
    have hx : z'.toNat ≤ x := hx
    rw [hz] at hx
    have hbyte := h.byte x hbn
    rw [hlen, if_neg (by omega)] at hbyte
    exact hbyte.trans (ht.beyond x (show z.toNat ≤ x by omega) hbn)

end Bytes

/-- `writei` over an entry. -/
theorem writei_entry (hcons : Consistent sb s.disk) (hbusy : s.busy = []) (hnum : ip.inum < sb.ninodes.toNat)
    (hsync : dnode s.disk ip.inum = ip.toDinode) (hdir : ip.type = tDir) (h : Table s.disk ip.toDinode)
    {bytes : List UInt8} (hlen : bytes.length = 16) {k : Nat} (hk : 16 * k < 2 ^ 32)
    (hrun : writei dev ip bytes (UInt32.ofNat (16 * k)) 16 s = .ok ((16, node), t)) :
    t.busy = [] ∧ EntryWritten sb s.disk ip k bytes t.disk node := by
  obtain ⟨hidle, hwritten, hnlink, hlast, hle, hsize, hstored⟩ :=
    writei_entry_stored hcons hbusy hnum hsync hdir h.bound hlen hk hrun
  exact ⟨hidle, hwritten, hnlink, hlast, hsize, hstored.table hlen hlast h hle hsize,
    fun o ho => hstored.entry_byte hlen hlast ho, fun j hj hne => hstored.entryAt_other hlen hj hne⟩

/-- An empty entry was overwritten. -/
theorem EntryWritten.entered {disk disk' : Nat → Sector} {d d' : Inode} {k : Nat}
    (h : EntryWritten sb disk d k e.encode disk' d') (hshort : e.name.length ≤ 14) (hzero : 0 ∉ e.name)
    (hempty : (entryAt disk d.toDinode k).inum = 0) : Entered sb disk d e disk' d' :=
  ⟨h.written, h.nlink, h.table, k, h.last, hempty, Dirent.decode_encode hshort hzero h.bytes, h.others⟩

end Link

section DirLink

variable {sb : Superblock} {s t : Kernel} {dp : Slot} {name : List UInt8} {dev : Devsw} {inum : Nat}

/-- `dirlink` under a name that is not there. -/
theorem dirlink_run (h : Accounted sb s) (href : 0 < (s.icache dp).ref) (hv : (s.icache dp).valid = true)
    (ht : Table s.bufs.disk (s.icache dp).node.toDinode) (hshort : name.length ≤ 14) (hzero : 0 ∉ name)
    {r : Int32} (hrun : dirlink dev dp name inum s = .ok (r, t)) (hr : ¬ r < 0) :
    ∃ node bufs, t = ({ s with bufs := bufs } : Kernel).set dp { s.icache dp with node := node } ∧
      bufs.busy = [] ∧ Entered sb s.bufs.disk (s.icache dp).node ⟨UInt16.ofNat inum, name⟩ bufs.disk node := by
  obtain ⟨hsync, _⟩ := h.synced dp href hv
  unfold dirlink at hrun
  obtain ⟨res, u, hlook, hrest⟩ := bind_eq_ok hrun
  obtain ⟨hdir, ⟨_, rfl, hu⟩ | ⟨i, r', off, _, rfl, _⟩⟩ := dirlookup_run h.idle ht hshort hzero hlook
  · rw [hu] at hrest
    simp only at hrest
    obtain ⟨_, v, hwith, hpure⟩ := bind_eq_ok hrest
    cases hpure
    obtain ⟨node, bufs, hx, rfl⟩ := withNode_eq_ok hwith
    refine ⟨node, bufs, rfl, ?_⟩
    obtain ⟨⟨off, ip⟩, w, hloop, hx⟩ := bind_eq_ok hx
    have hbound := ht.bound
    simp only [maxfile, bsize] at hbound
    have hoffs : ∀ o ∈ (List.range (((s.icache dp).node.size.toNat + 15) / 16)).map (16 * ·),
        ∃ k, o = 16 * k ∧ o < (s.icache dp).node.size.toNat := by
      intro o ho
      obtain ⟨k, hk, rfl⟩ := List.mem_map.mp ho
      have := List.mem_range.mp hk
      exact ⟨k, rfl, by omega⟩
    obtain ⟨hip, hw, hoff⟩ := dirlinkLoop_run h.idle hdir ht hoffs hloop
    obtain ⟨⟨ret, node'⟩, w', hwrite, hx⟩ := bind_eq_ok hx
    simp only at hx
    split at hx
    · cases hx
    rename_i hret
    cases hx
    rw [not_not.mp hret, hip, hw] at hwrite
    obtain ⟨k, rfl, hk, hempty⟩ : ∃ k, off = 16 * k ∧ 16 * k < 2 ^ 32 ∧
        (k < maxentries → (entryAt s.bufs.disk (s.icache dp).node.toDinode k).inum = 0) := by
      rcases hoff with rfl | ⟨k, rfl, hin, hempty⟩
      · exact ⟨_, rfl, by omega, fun hlast => ht.inum_beyond hlast (by omega)⟩
      · exact ⟨k, rfl, by omega, fun _ => hempty⟩
    obtain ⟨hidle, hentry⟩ := writei_entry h.consistent h.idle (h.number dp href) hsync.symm hdir ht
      (length_encode _) hk hwrite
    exact ⟨hidle, hentry.entered hshort hzero (hempty hentry.last)⟩
  · simp only at hrest
    obtain ⟨_, v, _, hpure⟩ := bind_eq_ok hrest
    cases hpure
    exact absurd (by decide) hr

end DirLink

end Xv6
end LfsXv6
