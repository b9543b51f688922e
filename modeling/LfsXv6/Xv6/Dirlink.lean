import LfsXv6.Xv6.Sysfile

/-!
# Dirlink — names that are inserted are found

`dirlink` looks for an empty entry by offsets, `dirlookup` for a name by blocks.  On a directory without
missing blocks both see the same list of entries, so that a name that was inserted is found at its entry,
and the other names stay where they were.
-/

namespace LfsXv6
namespace Xv6

open Lib Prog

/-! ## Writing an entry -/

section Writing

variable {sb : Superblock} {s : Bufs} {ip : Inode} {disk : Nat → Sector} {off n : UInt32}

/-- `writei` over an entry returns if there are free blocks for the directory. -/
theorem writei_room (dev : Devsw) (h : Holding sb s.disk ip) (hbusy : s.busy = []) (hdir : ip.type = tDir)
    (bytes : List UInt8) {k : Nat} (hlast : k < maxentries) (hin : 16 * k ≤ ip.size.toNat)
    (hroom : Room sb s.disk ip) : ∃ node t,
      writei dev ip bytes (UInt32.ofNat (16 * k)) 16 s = .ok ((16, node), t) ∧ Room sb t.disk node := by
  have hdev : ip.type ≠ tDev := by
    rw [hdir]
    decide
  simp only [maxentries, maxfile] at hlast
  have hoff : (UInt32.ofNat (16 * k)).toNat = 16 * k := by
    rw [UInt32.toNat_ofNat']
    omega
  have h16 : (16 : UInt32).toNat = 16 := rfl
  have hnot : ¬ (UInt32.ofNat (16 * k) > ip.size ∨ UInt32.ofNat (16 * k) + 16 < UInt32.ofNat (16 * k)) := by
    rw [gt_iff_lt, UInt32.lt_iff_toNat_lt, UInt32.lt_iff_toNat_lt, UInt32.toNat_add, hoff, h16]
    omega
  have hcount : (writeCount (UInt32.ofNat (16 * k)) 16).toNat = 16 := by
    have hcap : (writeCount (UInt32.ofNat (16 * k)) 16).toNat =
        min (16 : UInt32).toNat (maxfile * bsize - (UInt32.ofNat (16 * k)).toNat) :=
      writeCount_toNat (by simp only [maxfile, bsize]; omega) (by omega)
    rw [hcap, hoff, h16]
    simp only [maxfile, bsize]
    omega
  have hends : Ends (writei dev ip bytes (UInt32.ofNat (16 * k)) 16) s _ _ := writei_ends
    (I := fun _ _ disk ip' => Room sb disk ip') (fun _ _ _ _ _ _ _ _ hI _ hturn => hturn.room.mpr hI)
    h hbusy hdev hnot hroom id
  obtain ⟨⟨r, node⟩, t, hrun, hret, _, disk, ip', _, hh, _, hroom', rfl, ht⟩ := hends.returns (by
    rintro (hc | ⟨r, hr, hmax⟩)
    · exact hc hroom
    · rw [hcount] at hr
      have hpiece := mem_pieces hr
      rw [hoff] at hpiece
      simp only [maxfile, bsize] at hmax
      omega)
  simp only at hret ht
  have hsixteen : (writeCount (UInt32.ofNat (16 * k)) 16).toInt32 = 16 := by
    rw [← Int32.toInt_inj, toInt_toInt32 (by omega), hcount]
    rfl
  rw [hret, hsixteen] at hrun
  refine ⟨_, t, hrun, ?_⟩
  rw [ht]
  exact hh.room_putNode hroom'

end Writing

/-! ## What a directory lists -/

/-- The number and the offset of the first entry with a name. -/
def lookupEntry (disk : Nat → Sector) (n : Dinode) (name : List UInt8) : Option (Nat × Nat) :=
  (indexOf disk n name).map fun k => ((entryAt disk n k).inum.toNat, 16 * k)

/-- What `dirlookup` finds in the directory in slot `dp`: it compares 14 bytes. -/
def lookupAt (s : Kernel) (dp : Slot) (name : List UInt8) : Option (Nat × Nat) :=
  lookupEntry s.bufs.disk (s.icache dp).node.toDinode (name.take 14)

/-- `dirlookup` returns the inode with the number, and the offset. -/
def answer (s : Kernel) : Option (Nat × Nat) → Except Stop (Option (Slot × Nat) × Kernel)
  | none => .ok (none, s)
  | some (inum, off) => (iget inum s).map fun r => (some (r.1, off), r.2)

/-- Slot `dp` holds a directory of whole entries and at most `limit` bytes.  All its blocks are there, the
bytes past its end are zero, no two entries have the same name, and there are free blocks for the rest. -/
structure Listing (sb : Superblock) (s : Kernel) (dp : Slot) (limit : Nat) : Prop where
  accounted : Accounted sb s
  held : 0 < (s.icache dp).ref
  valid : (s.icache dp).valid = true
  type : (s.icache dp).node.type = tDir
  table : Table s.bufs.disk (s.icache dp).node.toDinode
  entire : 16 ∣ (s.icache dp).node.size.toNat
  bound : (s.icache dp).node.size.toNat ≤ limit
  distinct : ∀ j k, j < maxentries → k < maxentries →
    (entryAt s.bufs.disk (s.icache dp).node.toDinode j).inum ≠ 0 →
    (entryAt s.bufs.disk (s.icache dp).node.toDinode k).inum ≠ 0 →
    (entryAt s.bufs.disk (s.icache dp).node.toDinode j).name =
      (entryAt s.bufs.disk (s.icache dp).node.toDinode k).name → j = k
  room : Room sb s.bufs.disk (s.icache dp).node

/-- The disk and all inodes that are referred to are as before. -/
structure Unchanged (s t : Kernel) : Prop where
  bufs : t.bufs = s.bufs
  ref : ∀ j, (t.icache j).ref = (s.icache j).ref
  slots : ∀ j, 0 < (s.icache j).ref → t.icache j = s.icache j

/-- The directory after a function of the lower layers. -/
def Kernel.written (s : Kernel) (dp : Slot) (bufs : Bufs) (node : Inode) : Kernel :=
  ({ s with bufs := bufs } : Kernel).set dp { s.icache dp with node := node }

section Listed

variable {sb : Superblock} {disk disk' : Nat → Sector} {n n' : Dinode} {s t : Kernel} {dp : Slot}
variable {name : List UInt8} {k limit : Nat} {dev : Devsw} {d d' : Inode} {bytes : List UInt8}

@[simp] theorem Kernel.written_bufs {bufs : Bufs} {node : Inode} : (s.written dp bufs node).bufs = bufs := rfl

@[simp] theorem Kernel.written_icache {bufs : Bufs} {node : Inode} :
    (s.written dp bufs node).icache dp = { s.icache dp with node := node } := Kernel.set_icache_self

/-- Two directories that differ in entry `k` only, and do not have the name there. -/
theorem lookupEntry_congr (hothers : ∀ j, j < maxentries → j ≠ k → entryAt disk' n' j = entryAt disk n j)
    (hk : ¬ Named disk n name k) (hk' : ¬ Named disk' n' name k) :
    lookupEntry disk' n' name = lookupEntry disk n name := by
  have hnamed : ∀ j, j < maxentries → (Named disk' n' name j ↔ Named disk n name j) := by
    intro j hj
    by_cases hjk : j = k
    · rw [hjk]
      exact iff_of_false hk' hk
    · rw [Named, hothers j hj hjk, Named]
  have hindex : indexOf disk' n' name = indexOf disk n name := by
    ext j
    simp only [indexOf_eq_some]
    refine and_congr_right fun hj => and_congr (hnamed j hj) (forall₂_congr fun i hi => ?_)
    rw [hnamed i (by omega)]
  rw [lookupEntry, lookupEntry, hindex]
  cases hi : indexOf disk n name with
  | none => rfl
  | some j =>
      obtain ⟨hj, hat, _⟩ := indexOf_eq_some.mp hi
      have hjk : j ≠ k := by
        rintro rfl
        exact hk hat
      rw [Option.map_some, Option.map_some, hothers j hj hjk]

/-- An entry that was empty is found under its name. -/
theorem lookupEntry_new (hlast : k < maxentries)
    (hothers : ∀ j, j < maxentries → j ≠ k → entryAt disk' n' j = entryAt disk n j)
    (habsent : lookupEntry disk n name = none) (hat : Named disk' n' name k) :
    lookupEntry disk' n' name = some ((entryAt disk' n' k).inum.toNat, 16 * k) := by
  have hindex : indexOf disk' n' name = some k := by
    refine indexOf_eq_some.mpr ⟨hlast, hat, fun j hj hnamed => ?_⟩
    rw [lookupEntry, Option.map_eq_none_iff, indexOf_eq_none] at habsent
    rw [Named, hothers j (by omega) (by omega)] at hnamed
    exact habsent j (by omega) hnamed
  rw [lookupEntry, hindex, Option.map_some]

theorem EntryWritten.entry (h : EntryWritten sb disk d k bytes disk' d') :
    entryAt disk' d'.toDinode k = Dirent.decode fun o => bytes.getD o 0 := Dirent.decode_congr h.bytes

theorem lookupAt_written {bufs : Bufs} {node : Inode} (other : List UInt8) :
    lookupAt (s.written dp bufs node) dp other = lookupEntry bufs.disk node.toDinode (other.take 14) := by
  rw [lookupAt, Kernel.written_icache, Kernel.written_bufs]

/-- The reference that `iget` takes is given back. -/
theorem unchanged_of_iget {inum : Nat} {r : Slot} {u : Kernel} (hget : iget inum s = .ok (r, u)) :
    Unchanged s (u.set r { u.icache r with ref := (u.icache r).ref - 1 }) := by
  rcases iget_eq_ok hget with ⟨hpos, _, rfl⟩ | ⟨_, hfree, rfl⟩
  · have hsame : (s.set r { s.icache r with ref := (s.icache r).ref + 1 }).set r
        { s.icache r with ref := (s.icache r).ref + 1 - 1 } = s := by
      rw [Kernel.set_set, Int.add_sub_cancel]
      simp [Kernel.set]
    rw [Kernel.set_icache_self]
    simp only
    rw [hsame]
    exact ⟨rfl, fun _ => rfl, fun _ _ => rfl⟩
  · rw [Kernel.set_icache_self, Kernel.set_set]
    refine ⟨rfl, fun j => ?_, fun j hj => ?_⟩
    · rw [Kernel.set_icache]
      split
      · rename_i hjr
        rw [hjr, hfree]
        rfl
      · rfl
    · have hjr : j ≠ r := by
        rintro rfl
        omega
      rw [Kernel.set_icache, if_neg hjr]

namespace Listing

/-- `dirlookup` finds the first entry with the name. -/
theorem dirlookup_eq (h : Listing sb s dp limit) (hzero : 0 ∉ name) :
    dirlookup dp name s = answer s (lookupAt s dp name) := by
  rw [Xv6.dirlookup_eq h.accounted.idle h.table h.type hzero, lookupAt, lookupEntry]
  cases indexOf s.bufs.disk (s.icache dp).node.toDinode (name.take 14) with
  | none => rfl
  | some k => rfl

theorem synced (h : Listing sb s dp limit) :
    dnode s.bufs.disk (s.icache dp).node.inum = (s.icache dp).node.toDinode :=
  ((h.accounted.synced dp h.held h.valid).1).symm

/-- `writei` over an entry of the directory, or behind the last one. -/
theorem writei_ok (h : Listing sb s dp limit) (dev : Devsw) (hlen : bytes.length = 16)
    (hlast : k < maxentries) (hin : 16 * k ≤ (s.icache dp).node.size.toNat) : ∃ node bufs,
      writei dev (s.icache dp).node bytes (UInt32.ofNat (16 * k)) 16 s.bufs = .ok ((16, node), bufs) ∧
        bufs.busy = [] ∧ EntryWritten sb s.bufs.disk (s.icache dp).node k bytes bufs.disk node ∧
        Room sb bufs.disk node := by
  have hnum := h.accounted.number dp h.held
  have hallocated : (s.icache dp).node.type ≠ 0 := by
    rw [h.type]
    decide
  have hh := h.accounted.consistent.holding hnum hallocated h.synced
  obtain ⟨node, bufs, hrun, hroom⟩ := writei_room dev hh h.accounted.idle h.type bytes hlast hin h.room
  have hbig : 16 * k < 2 ^ 32 := by
    simp only [maxentries, maxfile] at hlast
    omega
  obtain ⟨hidle, hfilled⟩ := writei_entry h.accounted.consistent h.accounted.idle hnum h.synced h.type
    h.table hlen hbig hrun
  exact ⟨node, bufs, hrun, hidle, hfilled, hroom⟩

/-- The directory is in order after such a `writei`. -/
theorem write {bufs : Bufs} {node : Inode} (h : Listing sb s dp limit) (hidle : bufs.busy = [])
    (hf : EntryWritten sb s.bufs.disk (s.icache dp).node k bytes bufs.disk node) (hroom : Room sb bufs.disk node)
    {limit' : Nat} (hle : limit ≤ limit') (hend : 16 * k + 16 ≤ limit')
    (hnew : (entryAt bufs.disk node.toDinode k).inum ≠ 0 → ∀ j, j < maxentries → j ≠ k →
      (entryAt s.bufs.disk (s.icache dp).node.toDinode j).inum ≠ 0 →
      (entryAt s.bufs.disk (s.icache dp).node.toDinode j).name ≠
        (entryAt bufs.disk node.toDinode k).name) :
    Listing sb (s.written dp bufs node) dp limit' := by
  have hbound := h.bound
  have hentire := h.entire
  refine ⟨h.accounted.modify h.held h.valid bufs hidle hf.written, ?_, ?_, ?_, ?_, ?_, ?_, ?_, ?_⟩ <;>
    simp only [Kernel.written_icache, Kernel.written_bufs]
  · exact h.held
  · exact h.valid
  · rw [hf.written.type]
    exact h.type
  · exact hf.table
  · rw [hf.size]
    omega
  · rw [hf.size]
    omega
  · intro i j hi hj hii hij hname
    by_cases hik : i = k
    · by_cases hjk : j = k
      · rw [hik, hjk]
      · rw [hik] at hii hname
        rw [hf.others j hj hjk] at hij hname
        exact absurd hname.symm (hnew hii j hj hjk hij)
    · by_cases hjk : j = k
      · rw [hjk] at hij hname
        rw [hf.others i hi hik] at hii hname
        exact absurd hname (hnew hij i hi hik hii)
      · rw [hf.others i hi hik] at hii hname
        rw [hf.others j hj hjk] at hij hname
        exact h.distinct i j hi hj hii hij hname
  · exact hroom

/-- `dirlink` under a name that is not there writes the entry into the first empty place. -/
theorem dirlink_absent (h : Listing sb s dp (maxfile * bsize - 16)) (dev : Devsw) (hzero : 0 ∉ name)
    (inum : Nat) (habsent : lookupAt s dp name = none) : ∃ k node bufs,
      dirlink dev dp name inum s = .ok (0, s.written dp bufs node) ∧ bufs.busy = [] ∧
        EntryWritten sb s.bufs.disk (s.icache dp).node k (Dirent.encode ⟨UInt16.ofNat inum, name⟩) bufs.disk node ∧
        (entryAt s.bufs.disk (s.icache dp).node.toDinode k).inum = 0 ∧ Room sb bufs.disk node := by
  have hlook := h.dirlookup_eq hzero
  rw [habsent, answer] at hlook
  obtain ⟨m, hm⟩ := h.entire
  have hbound := h.bound
  simp only [maxfile, bsize] at hbound
  have hentries : ((s.icache dp).node.size.toNat + 15) / 16 = m := by omega
  have hoffs : ∀ o ∈ (List.range m).map (16 * ·), ∃ k, o = 16 * k ∧ o + 16 ≤ (s.icache dp).node.size.toNat := by
    intro o ho
    obtain ⟨k, hk, rfl⟩ := List.mem_map.mp ho
    have := List.mem_range.mp hk
    exact ⟨k, rfl, by omega⟩
  obtain ⟨⟨⟨off, ip⟩, bufs⟩, hloop⟩ :=
    dirlinkLoop_returns dev h.accounted.idle h.type h.table (16 * m) hoffs
  obtain ⟨rfl, rfl, hoff⟩ := dirlinkLoop_run h.accounted.idle h.type h.table
    (fun o ho => (hoffs o ho).imp fun k hk => ⟨hk.1, by omega⟩) hloop
  obtain ⟨k, rfl, hlast, hin, hempty⟩ : ∃ k, off = 16 * k ∧ k < maxentries ∧
      16 * k ≤ (s.icache dp).node.size.toNat ∧
      (entryAt s.bufs.disk (s.icache dp).node.toDinode k).inum = 0 := by
    rcases hoff with rfl | ⟨k, rfl, hin, hempty⟩
    · have hlast : m < maxentries := by
        simp only [maxentries, maxfile]
        omega
      exact ⟨m, rfl, hlast, by omega, h.table.inum_beyond hlast (by omega)⟩
    · refine ⟨k, rfl, ?_, by omega, hempty⟩
      simp only [maxentries, maxfile]
      omega
  obtain ⟨node, bufs, hwrite, hidle, hfilled, hroom⟩ := h.writei_ok dev
    (length_encode ⟨UInt16.ofNat inum, name⟩) hlast hin
  refine ⟨k, node, bufs, ?_, hidle, hfilled, hempty, hroom⟩
  unfold dirlink
  rw [bind_of_ok hlook]
  simp only
  refine (bind_of_ok (a := ()) (t := s.written dp bufs node) (withNode_ok ?_)).trans rfl
  simp only [hentries]
  rw [bind_of_ok hloop]
  simp only
  rw [bind_of_ok hwrite]
  rfl

/-- `dirlink` under a name that is there takes a reference and gives it back. -/
theorem dirlink_present (h : Listing sb s dp limit) (dev : Devsw) (hzero : 0 ∉ name) (inum : Nat)
    {e : Nat × Nat} (hsome : lookupAt s dp name = some e) : dirlink dev dp name inum s =
      (iget e.1 s).map fun r =>
        (-1, r.2.set r.1 { r.2.icache r.1 with ref := (r.2.icache r.1).ref - 1 }) := by
  have hlook := h.dirlookup_eq hzero
  rw [hsome, answer] at hlook
  unfold dirlink
  cases hget : iget e.1 s with
  | error e =>
      rw [hget] at hlook
      rw [bind_of_error hlook]
      rfl
  | ok r =>
      rw [hget] at hlook
      rw [bind_of_ok hlook]
      simp only
      have hkeep : ¬ ((r.2.icache r.1).ref = 1 ∧ (r.2.icache r.1).valid = true ∧
          (r.2.icache r.1).node.nlink = 0) := by
        rintro ⟨hone, hv, _⟩
        rcases iget_eq_ok hget with ⟨hpos, _, ht⟩ | ⟨_, _, ht⟩
        · rw [ht, Kernel.set_icache_self] at hone
          simp only at hone
          omega
        · rw [ht, Kernel.set_icache_self] at hv
          cases hv
      rw [bind_of_ok (iput_ok hkeep)]
      rfl

end Listing

end Listed

/-! ## Inserting a name -/

theorem encode_take (i : UInt16) (name : List UInt8) :
    Dirent.encode ⟨i, name⟩ = Dirent.encode ⟨i, name.take 14⟩ := by
  have hlen : 14 - (name.take 14).length = 14 - name.length := by
    rw [List.length_take]
    omega
  simp only [Dirent.encode, List.take_take, min_self, hlen]

/-- Name `name` was inserted at entry `k`: it is found there, the other names are where they were, and
clearing the entry takes it away again. -/
structure Inserted (sb : Superblock) (dev : Devsw) (s t : Kernel) (dp : Slot) (name : List UInt8)
    (inum k : Nat) : Prop where
  found : lookupAt t dp name = some (inum, 16 * k)
  entry : entryAt t.bufs.disk (t.icache dp).node.toDinode k = ⟨UInt16.ofNat inum, name.take 14⟩
  others : ∀ other, other.take 14 ≠ name.take 14 → lookupAt t dp other = lookupAt s dp other
  listing : Listing sb t dp (maxfile * bsize)
  slots : ∀ j, j ≠ dp → t.icache j = s.icache j
  cleared : ∃ u, withNode dp (fun ip => writei dev ip (List.replicate 16 0) (UInt32.ofNat (16 * k)) 16) t =
      .ok (16, u) ∧ Listing sb u dp (maxfile * bsize) ∧ ∀ other, lookupAt u dp other = lookupAt s dp other

section Insert

variable {sb : Superblock} {s : Kernel} {dp : Slot} {name : List UInt8} {inum : Nat}

/-- Entry `k` was empty; it gets the name, and is emptied again. -/
theorem Listing.inserted (h : Listing sb s dp (maxfile * bsize - 16)) (dev : Devsw) (hzero : 0 ∉ name)
    (hpos : 0 < inum) (hinum : inum < 2 ^ 16) {k : Nat} {node : Inode} {bufs : Bufs}
    (habsent : lookupAt s dp name = none) (hidle : bufs.busy = [])
    (hf : EntryWritten sb s.bufs.disk (s.icache dp).node k (Dirent.encode ⟨UInt16.ofNat inum, name⟩) bufs.disk node)
    (hempty : (entryAt s.bufs.disk (s.icache dp).node.toDinode k).inum = 0) (hroom : Room sb bufs.disk node) :
    Inserted sb dev s (s.written dp bufs node) dp name inum k := by
  have hval : (UInt16.ofNat inum).toNat = inum := by
    rw [UInt16.toNat_ofNat']
    omega
  have hne : UInt16.ofNat inum ≠ 0 := by
    intro h0
    have := congrArg UInt16.toNat h0
    simp only [hval, UInt16.toNat_zero] at this
    omega
  have hentry : entryAt bufs.disk node.toDinode k = ⟨UInt16.ofNat inum, name.take 14⟩ := by
    rw [hf.entry, encode_take]
    exact Dirent.decode_encode (List.length_take_le _ _)
      (fun hmem => hzero (List.mem_of_mem_take hmem)) fun _ _ => rfl
  have hlast := hf.last
  have hend : 16 * k + 16 ≤ maxfile * bsize := by
    simp only [maxentries, maxfile, bsize] at hlast ⊢
    omega
  -- no other entry has the name
  have hnew : ∀ j, j < maxentries → (entryAt s.bufs.disk (s.icache dp).node.toDinode j).inum ≠ 0 →
      (entryAt s.bufs.disk (s.icache dp).node.toDinode j).name ≠ name.take 14 := by
    intro j hj hji hname
    rw [lookupAt, lookupEntry, Option.map_eq_none_iff, indexOf_eq_none] at habsent
    exact habsent j hj ⟨hji, hname⟩
  have hlisting : Listing sb (s.written dp bufs node) dp (maxfile * bsize) := by
    refine h.write hidle hf hroom (by omega) hend fun _ j hj _ hji => ?_
    rw [hentry]
    exact hnew j hj hji
  have hunnamed : ∀ other, ¬ Named s.bufs.disk (s.icache dp).node.toDinode other k :=
    fun other hnamed => hnamed.1 hempty
  refine ⟨?_, ?_, fun other hother => ?_, hlisting, fun j hj => Function.update_of_ne hj _ _, ?_⟩
  · have hat : Named bufs.disk node.toDinode (name.take 14) k := by
      rw [Named, hentry]
      exact ⟨hne, rfl⟩
    have hfound := lookupEntry_new hlast hf.others habsent hat
    rw [hentry, hval] at hfound
    rw [lookupAt_written]
    exact hfound
  · rw [Kernel.written_icache, Kernel.written_bufs]
    exact hentry
  · rw [lookupAt_written]
    refine lookupEntry_congr hf.others (hunnamed _) fun hnamed => hother ?_
    have hname := hnamed.2
    rw [hentry] at hname
    exact hname.symm
  · have hin : 16 * k ≤ node.size.toNat := by
      rw [hf.size]
      omega
    obtain ⟨node', bufs', hwrite, hidle', hf', hroom'⟩ := hlisting.writei_ok dev
      (List.length_replicate (n := 16) (a := (0 : UInt8))) hlast (by rwa [Kernel.written_icache])
    have hzeros : (entryAt bufs'.disk node'.toDinode k).inum = 0 := by
      rw [hf'.entry]
      rfl
    refine ⟨(s.written dp bufs node).written dp bufs' node', withNode_ok hwrite, ?_, fun other => ?_⟩
    · exact hlisting.write hidle' hf' hroom' le_rfl hend fun hused => absurd hzeros hused
    · rw [lookupAt_written]
      rw [Kernel.written_icache, Kernel.written_bufs] at hf'
      refine lookupEntry_congr (fun j hj hjk => ?_) (hunnamed _) fun hnamed => ?_
      · exact (hf'.others j hj hjk).trans (hf.others j hj hjk)
      · exact hnamed.1 hzeros

/-- `dirlink` and `dirlookup` agree. -/
theorem dirlink_agrees (h : Listing sb s dp (maxfile * bsize - 16)) (dev : Devsw) (hzero : 0 ∉ name)
    (hpos : 0 < inum) (hinum : inum < 2 ^ 16) :
    ((∃ r u, dirlookup dp name s = .ok (some r, u)) ↔ ∃ t, dirlink dev dp name inum s = .ok (-1, t)) ∧
    (∀ t, dirlink dev dp name inum s = .ok (-1, t) → Unchanged s t) ∧
    ((∃ u, dirlookup dp name s = .ok (none, u)) → ∃ t k, dirlink dev dp name inum s = .ok (0, t) ∧
      Inserted sb dev s t dp name inum k) ∧
    (∀ limit u, Listing sb u dp limit → ∀ other, 0 ∉ other →
      dirlookup dp other u = answer u (lookupAt u dp other)) ∧
    ((∃ i, (s.icache i).ref = 0) → ∃ r u, dirlookup dp name s = .ok (r, u)) := by
  have hlook := h.dirlookup_eq hzero
  have hspec : ∀ limit u, Listing sb u dp limit → ∀ other, 0 ∉ other →
      dirlookup dp other u = answer u (lookupAt u dp other) := fun _ _ hu _ hother => hu.dirlookup_eq hother
  cases hat : lookupAt s dp name with
  | none =>
      rw [hat, answer] at hlook
      obtain ⟨k, node, bufs, hrun, hidle, hf, hempty, hroom⟩ := h.dirlink_absent dev hzero inum hat
      refine ⟨⟨?_, ?_⟩, fun t ht => ?_, fun _ => ⟨_, k, hrun, ?_⟩, hspec, fun _ => ⟨_, _, hlook⟩⟩
      · rintro ⟨r, u, hr⟩
        rw [hlook] at hr
        cases hr
      · rintro ⟨t, ht⟩
        rw [hrun] at ht
        cases ht
      · rw [hrun] at ht
        cases ht
      · exact h.inserted dev hzero hpos hinum hat hidle hf hempty hroom
  | some e =>
      rw [hat] at hlook
      have hrun := h.dirlink_present dev hzero inum hat
      simp only [answer] at hlook
      cases hget : iget e.1 s with
      | error e' =>
          rw [hget] at hlook hrun
          refine ⟨⟨?_, ?_⟩, fun t ht => ?_, ?_, hspec, ?_⟩
          · rintro ⟨r, u, hr⟩
            rw [hlook] at hr
            cases hr
          · rintro ⟨t, ht⟩
            rw [hrun] at ht
            cases ht
          · rw [hrun] at ht
            cases ht
          · rintro ⟨u, hr⟩
            rw [hlook] at hr
            cases hr
          · rintro ⟨i, hi⟩
            obtain ⟨r, u, hr⟩ := iget_ok e.1 hi
            rw [hget] at hr
            cases hr
      | ok r =>
          rw [hget] at hlook hrun
          refine ⟨⟨fun _ => ⟨_, hrun⟩, fun _ => ⟨_, _, hlook⟩⟩, fun t ht => ?_, ?_, hspec,
            fun _ => ⟨_, _, hlook⟩⟩
          · rw [hrun] at ht
            cases ht
            exact unchanged_of_iget hget
          · rintro ⟨u, hr⟩
            rw [hlook] at hr
            cases hr

end Insert

/-! ## A directory that fills up -/

/-- The empty root directory, in memory and locked. -/
def rootLocked : Kernel where
  bufs := { disk := rootDisk, busy := [] }
  icache := fun i => if i = 0 then ⟨1, true, true, rootNode⟩ else ⟨0, false, false, newInode 0 0⟩

theorem rootLocked_node : (rootLocked.icache 0).node.toDinode = dnode rootDisk rootino := rootDisk_node.symm

theorem rootLocked_inum (k : Nat) :
    (entryAt rootLocked.bufs.disk (rootLocked.icache 0).node.toDinode k).inum = 0 := by
  rw [rootLocked_node]
  exact inum_rootDisk k

theorem rootLocked_listing : Listing ⟨8192, 8⟩ rootLocked 0 (maxfile * bsize - 16) := by
  have hheld : ∀ i, 0 < (rootLocked.icache i).ref → i = 0 := by decide
  have htype : (dnode rootDisk rootino).type = tDir := congrArg Dinode.type rootDisk_node
  refine ⟨⟨rootDisk_consistent, rfl, ?_, ?_, ?_⟩, by decide, by decide, by decide, ?_, by decide, by decide,
    fun j k _ _ hj => absurd (rootLocked_inum j) hj, ?_⟩
  · intro i hi
    rw [hheld i hi]
    decide
  · intro i hi _
    rw [hheld i hi]
    exact ⟨rootLocked_node, by decide⟩
  · intro i j hi hj _
    rw [hheld i hi, hheld j hj]
  · rw [rootLocked_node]
    exact rootDisk_dirs.table rootino (by decide) htype
  · have hfree : freeBlocks ⟨8192, 8⟩ rootLocked.bufs.disk = freeBlocks ⟨8192, 8⟩ blankDisk := by
      refine freeBlocks_congr fun b hb => Function.update_of_ne ?_ _ _
      rintro rfl
      exact absurd hb.1 (by decide)
    unfold Room
    rw [hfree]
    exact (card_missing_le _ _).trans le_card_freeBlocks

theorem rootLocked_absent (name : List UInt8) : lookupAt rootLocked 0 name = none := by
  rw [lookupAt, lookupEntry, Option.map_eq_none_iff, indexOf_eq_none]
  intro k _ hnamed
  exact hnamed.1 (rootLocked_inum k)

/-- A name of 16 bytes in an empty directory is found under its first 14 bytes. -/
theorem dirlink_agrees_long : ∃ t k, dirlink noDevices 0 (List.replicate 16 97) 5 rootLocked = .ok (0, t) ∧
    lookupAt t 0 (List.replicate 14 97) = some (5, 16 * k) := by
  obtain ⟨_, _, hinsert, _, _⟩ := dirlink_agrees rootLocked_listing noDevices
    (show 0 ∉ List.replicate 16 97 by decide) (show 0 < 5 by decide) (by decide)
  have hlook := rootLocked_listing.dirlookup_eq (show 0 ∉ List.replicate 16 97 by decide)
  rw [rootLocked_absent] at hlook
  obtain ⟨t, k, hrun, hk⟩ := hinsert ⟨_, hlook⟩
  exact ⟨t, k, hrun, hk.found⟩

/-- Different names of two bytes. -/
def nameOf (i : Nat) : List UInt8 := [UInt8.ofNat (1 + i % 255), UInt8.ofNat (1 + i / 255)]

theorem zero_notMem_nameOf {i : Nat} (hi : i < maxentries) : 0 ∉ nameOf i := by
  simp only [maxentries, maxfile] at hi
  have hne : ∀ m, m < 256 → 0 < m → (0 : UInt8) ≠ UInt8.ofNat m := by
    intro m hm hpos h0
    have := congrArg UInt8.toNat h0
    rw [UInt8.toNat_ofNat', UInt8.toNat_zero] at this
    omega
  intro hmem
  rcases List.mem_cons.mp hmem with h0 | hmem
  · exact hne _ (by omega) (by omega) h0
  · exact hne _ (by omega) (by omega) (List.mem_singleton.mp hmem)

theorem nameOf_inj {i j : Nat} (hi : i < maxentries) (hj : j < maxentries)
    (h : (nameOf i).take 14 = (nameOf j).take 14) : i = j := by
  simp only [maxentries, maxfile] at hi hj
  have hcons : nameOf i = nameOf j := h
  obtain ⟨hlow, hrest⟩ := List.cons.inj hcons
  have hhigh := (List.cons.inj hrest).1
  have hlow' := congrArg UInt8.toNat hlow
  have hhigh' := congrArg UInt8.toNat hhigh
  simp only [UInt8.toNat_ofNat'] at hlow' hhigh'
  omega

/-- A directory of at most 4479 entries does not have 4480 names. -/
theorem Listing.few_names {sb : Superblock} {s : Kernel} {dp : Slot}
    (h : Listing sb s dp (maxfile * bsize - 16)) : ∃ i, i < maxentries ∧ lookupAt s dp (nameOf i) = none := by
  by_contra hall
  have hindex : ∀ i : Fin maxentries, ∃ k : Fin (maxentries - 1),
      Named s.bufs.disk (s.icache dp).node.toDinode ((nameOf i).take 14) k := by
    intro i
    cases hat : indexOf s.bufs.disk (s.icache dp).node.toDinode ((nameOf i).take 14) with
    | none =>
        refine absurd ⟨i, i.isLt, ?_⟩ hall
        rw [lookupAt, lookupEntry, hat, Option.map_none]
    | some k =>
        obtain ⟨hk, hnamed, _⟩ := indexOf_eq_some.mp hat
        have hin : 16 * k < (s.icache dp).node.size.toNat := by
          by_contra hout
          exact hnamed.1 (h.table.inum_beyond hk (by omega))
        have hbound := h.bound
        refine ⟨⟨k, ?_⟩, hnamed⟩
        simp only [maxentries, maxfile, bsize] at hbound ⊢
        omega
  choose k hk using hindex
  obtain ⟨i, j, hne, hsame⟩ := Fintype.exists_ne_map_eq_of_card_lt k (by simp)
  refine hne (Fin.ext (nameOf_inj i.isLt j.isLt ?_))
  rw [← (hk i).2, ← (hk j).2, hsame]

/-- A directory does not stay short enough for another entry. -/
theorem not_listing_again : ¬ ∀ (sb : Superblock) (dev : Devsw) (dp : Slot) (name : List UInt8) (inum : Nat)
    (s t : Kernel), Listing sb s dp (maxfile * bsize - 16) → 0 ∉ name → 0 < inum → inum < 2 ^ 16 →
    dirlink dev dp name inum s = .ok (0, t) → Listing sb t dp (maxfile * bsize - 16) := by
  intro hclaim
  -- one name after the other
  have hfill : ∀ m, m ≤ maxentries → ∃ s, Listing ⟨8192, 8⟩ s 0 (maxfile * bsize - 16) ∧
      ∀ i, i < maxentries → (lookupAt s 0 (nameOf i) = none ↔ m ≤ i) := by
    intro m
    induction m with
    | zero =>
        exact fun _ => ⟨rootLocked, rootLocked_listing,
          fun i _ => iff_of_true (rootLocked_absent _) (Nat.zero_le i)⟩
    | succ m ih =>
        intro hm
        obtain ⟨s, hs, hnames⟩ := ih (by omega)
        have hzero := zero_notMem_nameOf (show m < maxentries by omega)
        have habsent := (hnames m (by omega)).mpr le_rfl
        obtain ⟨k, node, bufs, hrun, hidle, hf, hempty, hroom⟩ := hs.dirlink_absent noDevices hzero 1 habsent
        have hk := hs.inserted noDevices hzero (by decide) (by decide) habsent hidle hf hempty hroom
        refine ⟨_, hclaim _ _ _ _ _ _ _ hs hzero (by decide) (by decide) hrun, fun i hi => ?_⟩
        by_cases him : i = m
        · rw [him, hk.found]
          exact iff_of_false (Option.some_ne_none _) (by omega)
        · rw [hk.others _ fun hsame => him (nameOf_inj hi (by omega) hsame), hnames i hi]
          omega
  obtain ⟨s, hs, hnames⟩ := hfill maxentries le_rfl
  obtain ⟨i, hi, hnone⟩ := hs.few_names
  exact absurd ((hnames i hi).mp hnone) (by omega)

end Xv6
end LfsXv6
