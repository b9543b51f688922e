import LfsXv6.Xv6.Directory
import LfsXv6.Xv6.MkfsLimits

/-!
# MkfsLookup — the kernel finds what `mkfs` has written

A path of the host's tree leads to a number (`walk`).  On an image of the tree `namei` leads to the inode
of this number, and the inode has the bytes of the file of the host.  The names of a directory are looked
for in the order in which `add_dir` appended them, so that a directory whose last block is missing is
never read that far for a name that it has.
-/

namespace LfsXv6
namespace Xv6

open Lib Prog

/-! ## Names -/

/-- A name that the host may give to an entry, and that fits into a `struct dirent`. -/
structure GoodName (name : List UInt8) : Prop where
  pos : name ≠ []
  short : name.length ≤ 14
  nonzero : 0 ∉ name
  noslash : slash ∉ name
  notdot : name ≠ [46]
  notdots : name ≠ [46, 46]

/-- All names of a tree are good. -/
def Entries.Named : Entries → Prop
  | .nil => True
  | .file name _ rest => GoodName name ∧ rest.Named
  | .dir name sub rest => GoodName name ∧ sub.Named ∧ rest.Named

/-- What a path leads to. -/
inductive Child where
  | file (bytes : List UInt8)
  | dir (entries : Entries)

/-- The first entry with a name, and its inode number. -/
def Entries.find (name : List UInt8) : Nat → Entries → Option (Nat × Child)
  | _, .nil => none
  | n, .file name' chunks rest =>
      if name' = name then some (n, .file chunks.flatten) else rest.find name (n + 1)
  | n, .dir name' sub rest =>
      if name' = name then some (n, .dir sub) else rest.find name (n + 1 + sub.count)

/-- Where a path leads from directory `d`, whose entries have the inodes from `n` on. -/
def walk (d : Nat) (es : Entries) (n : Nat) : List (List UInt8) → Option (Nat × Child)
  | [] => some (d, .dir es)
  | name :: names =>
      match es.find name n with
      | none => none
      | some (i, .file bytes) => if names = [] then some (i, .file bytes) else none
      | some (i, .dir sub) => walk i sub (i + 1) names

/-- The path with these elements, from the root on. -/
def pathOf (names : List (List UInt8)) : List UInt8 := slash :: List.intercalate [slash] names

section Paths

variable {name : List UInt8} {names : List (List UInt8)}

theorem skipelem_slash (path : List UInt8) : skipelem (slash :: path) = skipelem path := by
  have hdrop : (slash :: path).dropWhile (· == slash) = path.dropWhile (· == slash) :=
    List.dropWhile_cons_of_pos rfl
  simp only [skipelem, hdrop]

theorem skipelem_name (rest : List UInt8) (hpos : name ≠ []) (hshort : name.length ≤ 14)
    (hslash : slash ∉ name) (hrest : rest = [] ∨ rest.head? = some slash) :
    skipelem (name ++ rest) = some (name, rest.dropWhile (· == slash)) := by
  have hall : ∀ b ∈ name, (b != slash) = true := by
    intro b hb
    simp only [bne_iff_ne]
    rintro rfl
    exact hslash hb
  have hdrop : (name ++ rest).dropWhile (· == slash) = name ++ rest := by
    cases name with
    | nil => exact absurd rfl hpos
    | cons b name =>
        have hb := hall b List.mem_cons_self
        rw [List.cons_append, List.dropWhile_cons_of_neg]
        simpa using hb
  have htake : (name ++ rest).takeWhile (· != slash) = name := by
    rw [List.takeWhile_append_of_pos hall]
    rcases hrest with rfl | hhead
    · simp
    · cases rest with
      | nil => cases hhead
      | cons b rest =>
          rw [Option.some.inj hhead]
          simp
  have hne : name ++ rest ≠ [] := by
    intro h0
    exact hpos (List.append_eq_nil_iff.mp h0).1
  simp only [skipelem, hdrop, if_neg hne, htake, List.drop_left, List.take_of_length_le hshort]

theorem elems_intercalate {n : Nat} (hn : names.length ≤ n)
    (hgood : ∀ name ∈ names, name ≠ [] ∧ name.length ≤ 14 ∧ slash ∉ name) :
    elems n (List.intercalate [slash] names) = names := by
  induction names generalizing n with
  | nil =>
      cases n with
      | zero => rfl
      | succ n => simp [elems, skipelem, List.intercalate]
  | cons name names ih =>
      cases n with
      | zero => simp at hn
      | succ n =>
          have hlen : names.length ≤ n := by simpa using hn
          obtain ⟨hpos, hshort, hslash⟩ := hgood name List.mem_cons_self
          have hrest := ih hlen fun x hx => hgood x (List.mem_cons_of_mem _ hx)
          cases names with
          | nil =>
              have hskip := skipelem_name [] hpos hshort hslash (.inl rfl)
              rw [List.append_nil] at hskip
              have hpath : List.intercalate [slash] [name] = name := by simp [List.intercalate]
              rw [hpath, elems, hskip]
              exact congrArg (name :: ·) hrest
          | cons name' names =>
              have hpath : List.intercalate [slash] (name :: name' :: names) =
                  name ++ (slash :: List.intercalate [slash] (name' :: names)) := by
                simp [List.intercalate, List.intersperse]
              have hskip := skipelem_name (slash :: List.intercalate [slash] (name' :: names)) hpos hshort
                hslash (.inr rfl)
              have hhead : (List.intercalate [slash] (name' :: names)).dropWhile (· == slash) =
                  List.intercalate [slash] (name' :: names) := by
                obtain ⟨hpos', _, hslash'⟩ := hgood name' (by simp)
                cases name' with
                | nil => exact absurd rfl hpos'
                | cons b name' =>
                    have hb : b ≠ slash := by
                      rintro rfl
                      exact hslash' List.mem_cons_self
                    have hcons : ∃ tail, List.intercalate [slash] ((b :: name') :: names) = b :: tail := by
                      cases names <;> simp [List.intercalate, List.intersperse]
                    obtain ⟨tail, htail⟩ := hcons
                    rw [htail, List.dropWhile_cons_of_neg]
                    simpa using hb
              rw [List.dropWhile_cons_of_pos (by rfl), hhead] at hskip
              rw [hpath, elems, hskip]
              exact congrArg (name :: ·) hrest

/-- The elements of a path of the tree. -/
theorem elems_pathOf (hgood : ∀ name ∈ names, GoodName name) :
    elems (pathOf names).length (pathOf names) = names := by
  have hgood' : ∀ name ∈ names, name ≠ [] ∧ name.length ≤ 14 ∧ slash ∉ name :=
    fun name hn => ⟨(hgood name hn).pos, (hgood name hn).short, (hgood name hn).noslash⟩
  have hlen : names.length ≤ (List.intercalate [slash] names).length + 1 := by
    clear hgood hgood'
    induction names with
    | nil => simp
    | cons name names ih =>
        cases names with
        | nil => simp
        | cons name' names =>
            have hpath : List.intercalate [slash] (name :: name' :: names) =
                name ++ (slash :: List.intercalate [slash] (name' :: names)) := by
              simp [List.intercalate, List.intersperse]
            rw [hpath, List.length_append, List.length_cons]
            have hslash : (slash :: List.intercalate [slash] (name' :: names)).length =
              (List.intercalate [slash] (name' :: names)).length + 1 := rfl
            omega
  have hslash : elems ((List.intercalate [slash] names).length + 1) (pathOf names) =
      elems ((List.intercalate [slash] names).length + 1) (List.intercalate [slash] names) := by
    rw [pathOf, elems, elems, skipelem_slash]
  have hself : (pathOf names).length = (List.intercalate [slash] names).length + 1 := rfl
  rw [hself, hslash, elems_intercalate hlen hgood']

end Paths

/-! ## Entries in the bytes of a directory -/

section Dirents

variable {es : List (Nat × List UInt8)} {i e o : Nat} {name : List UInt8}

/-- An entry is read as it was written. -/
theorem decode_hostDirent {m : Mem} (hshort : name.length ≤ 14) (hzero : 0 ∉ name)
    (h : ∀ o, o < 16 → m o = (hostDirent i name).getD o 0) :
    Dirent.decode m = ⟨UInt16.ofNat i, name⟩ :=
  Dirent.decode_encode hshort hzero h

theorem getD_direntBytes (he : e < es.length) (ho : o < 16) :
    (direntBytes es).getD (16 * e + o) 0 = (hostDirent es[e].1 es[e].2).getD o 0 := by
  induction es generalizing e with
  | nil => simp at he
  | cons x es ih =>
      have hcons : direntBytes (x :: es) = hostDirent x.1 x.2 ++ direntBytes es := rfl
      have hlen := length_hostDirent x.1 x.2
      cases e with
      | zero =>
          rw [hcons, List.getD_append _ _ _ _ (by omega), Nat.mul_zero, Nat.zero_add]
          rfl
      | succ e =>
          have he' : e < es.length := by simpa using he
          rw [hcons, List.getD_append_right _ _ _ _ (by omega)]
          have hsub : 16 * (e + 1) + o - (hostDirent x.1 x.2).length = 16 * e + o := by omega
          rw [hsub, ih he']
          rfl

/-- The directory has these entries. -/
def dirEntries (d parent : Nat) (es : Entries) (n : Nat) : List (Nat × List UInt8) :=
  (d, [46]) :: (parent, [46, 46]) :: es.numbered n

theorem direntBytes_dirEntries (d parent : Nat) (es : Entries) (n : Nat) :
    hostDirent d [46] ++ hostDirent parent [46, 46] ++ direntBytes (es.numbered n) =
      direntBytes (dirEntries d parent es n) := by
  simp [direntBytes, dirEntries]

end Dirents

/-! ## `dirlookup` on an image -/

section Search

variable {s : Bufs} {ip : Inode} {x : PlanNode} {es : List (Nat × List UInt8)} {name : List UInt8} {e : Nat}

/-- Entry `k` of block `bn` of a directory. -/
theorem dirent_block (h : Describes s.disk ip.toDinode x) (hx : x.bytes = direntBytes es)
    (hgood : ∀ y ∈ es, y.2.length ≤ 14 ∧ 0 ∉ y.2) {bn k : Nat} (hk : k < 32)
    (he : 32 * bn + k < es.length) :
    (s.disk (ip.addr s.disk (blockPlace bn))).dirent k =
      ⟨UInt16.ofNat es[32 * bn + k].1, es[32 * bn + k].2⟩ := by
  have hlen : x.bytes.length = 16 * es.length := by rw [hx, length_direntBytes]
  have hshort := h.short
  simp only [maxfile, bsize] at hshort
  have hmapped : ip.addr s.disk (blockPlace bn) ≠ 0 := by
    rw [h.filled.block bn (by simp only [maxfile]; omega), hlen]
    simp only [bsize]
    omega
  obtain ⟨hname, hzero⟩ := hgood es[32 * bn + k] (List.getElem_mem he)
  refine decode_hostDirent hname hzero ?_
  intro o ho
  have hdiv : (512 * bn + (16 * k + o)) / bsize = bn := by
    simp only [bsize]
    omega
  have hmod : (512 * bn + (16 * k + o)) % bsize = 16 * k + o := by
    simp only [bsize]
    omega
  have hbyte := h.byte (512 * bn + (16 * k + o)) (by rw [hdiv]; simp only [maxfile]; omega)
  rw [byteAt, hdiv, if_neg hmapped, hmod] at hbyte
  have hidx : 512 * bn + (16 * k + o) = 16 * (32 * bn + k) + o := by omega
  rw [hbyte, hidx, hx, getD_direntBytes he ho]

/-- `dirlookup` finds the first entry with the name. -/
theorem dirlookupLoop_found (hbusy : s.busy = []) (h : Describes s.disk ip.toDinode x)
    (hx : x.bytes = direntBytes es) (hgood : ∀ y ∈ es, y.2.length ≤ 14 ∧ 0 ∉ y.2)
    (hnum : ∀ y ∈ es, 1 ≤ y.1 ∧ y.1 < 200) (he : e < es.length) (hname : es[e].2 = name)
    (hfirst : ∀ j, (hj : j < e) → es[j].2 ≠ name) :
    ∃ off, dirlookupLoop name ip (List.range ((ip.size.toNat + (bsize - 1)) / bsize)) s =
      .ok ((some (UInt16.ofNat es[e].1, off), ip), s) := by
  have hlen : x.bytes.length = 16 * es.length := by rw [hx, length_direntBytes]
  have hshort := h.short
  have hsize := h.size_toNat
  simp only [maxfile, bsize] at hshort
  have hcovers : e / 32 < (ip.size.toNat + (bsize - 1)) / bsize := by
    rw [hsize, PlanNode.size]
    simp only [bsize]
    split <;> omega
  have hne : ∀ y ∈ es, UInt16.ofNat y.1 ≠ 0 := by
    intro y hy h0
    have hval := congrArg UInt16.toNat h0
    have := hnum y hy
    rw [UInt16.toNat_ofNat'] at hval
    simp only [UInt16.toNat_zero] at hval
    omega
  have hsame : ∀ y ∈ es, namecmp name y.2 = 0 ↔ y.2 = name := by
    intro y hy
    obtain ⟨hlen, hzero⟩ := hgood _ (List.getElem_mem he)
    rw [hname] at hlen hzero
    rw [namecmp_eq_zero hzero (hgood y hy).2 (hgood y hy).1, List.take_of_length_le hlen]
  have hblocks : ∀ bn ∈ List.range (e / 32 + 1), bn < maxfile ∧ ip.addr s.disk (blockPlace bn) ≠ 0 := by
    intro bn hbn
    have hlt := List.mem_range.mp hbn
    have hmax : bn < maxfile := by
      simp only [maxfile]
      omega
    refine ⟨hmax, ?_⟩
    rw [h.filled.block bn hmax, hlen]
    simp only [bsize]
    omega
  have hsplit : List.range ((ip.size.toNat + (bsize - 1)) / bsize) =
      List.range (e / 32 + 1) ++ (List.range ((ip.size.toNat + (bsize - 1)) / bsize - (e / 32 + 1))).map
        (e / 32 + 1 + ·) := by
    rw [← List.range_add]
    congr 1
    omega
  -- no match in the blocks before, and in the entries before of the same block
  have hbefore : ∀ bn, bn < e / 32 → blockEntry s.disk ip name bn = none := by
    intro bn hbn
    rw [blockEntry, Option.map_eq_none_iff, Sector.findEntry, List.find?_eq_none]
    intro k hk
    have hk32 := List.mem_range.mp hk
    rw [dirent_block h hx hgood hk32 (by omega)]
    simp only [decide_eq_true_eq, not_and]
    intro _
    rw [hsame _ (List.getElem_mem _)]
    exact hfirst _ (by omega)
  have hat : blockEntry s.disk ip name (e / 32) =
      some (UInt16.ofNat es[e].1, e / 32 * bsize + 16 * (e % 32)) := by
    have hidx : 32 * (e / 32) + e % 32 = e := by omega
    have hdirent := dirent_block h hx hgood (Nat.mod_lt e (by decide : 32 > 0)) (by rwa [hidx])
    simp only [hidx] at hdirent
    have hfind : Sector.findEntry (s.disk (ip.addr s.disk (blockPlace (e / 32)))) name = some (e % 32) := by
      rw [Sector.findEntry, List.find?_range_eq_some]
      refine ⟨?_, List.mem_range.mpr (Nat.mod_lt e (by decide)), ?_⟩
      · rw [hdirent]
        simp only [decide_eq_true_eq]
        exact ⟨hne _ (List.getElem_mem he), (hsame _ (List.getElem_mem he)).mpr hname⟩
      · intro k hk
        rw [dirent_block h hx hgood (by omega) (by omega)]
        simp only [Bool.not_eq_eq_eq_not, Bool.not_true, decide_eq_false_iff_not, not_and]
        intro _
        rw [hsame _ (List.getElem_mem _)]
        exact hfirst _ (by omega)
    rw [blockEntry, hfind, Option.map_some, hdirent]
  have hfound : (List.range (e / 32 + 1)).findSome? (blockEntry s.disk ip name) =
      some (UInt16.ofNat es[e].1, e / 32 * bsize + 16 * (e % 32)) := by
    have hnone : (List.range (e / 32)).findSome? (blockEntry s.disk ip name) = none := by
      rw [List.findSome?_eq_none_iff]
      exact fun bn hbn => hbefore bn (List.mem_range.mp hbn)
    rw [List.range_succ, List.findSome?_append, hnone, List.findSome?_singleton, hat]
    rfl
  refine ⟨e / 32 * bsize + 16 * (e % 32), ?_⟩
  rw [hsplit, dirlookupLoop_append hbusy _ name hblocks, hfound]

end Search

/-! ## A step of `namex` -/

/-- The kernel runs on `disk` and holds no lock. -/
structure AtRest (disk : Nat → Sector) (s : Kernel) : Prop where
  accounted : Accounted imageSb s
  disk : s.bufs.disk = disk
  unlocked : ∀ i, 0 < (s.icache i).ref → (s.icache i).busy = false

def freeSlots (s : Kernel) : Finset Slot := Finset.univ.filter fun i => (s.icache i).ref = 0

/-- The slots that are free, or are going to be when slot `f` is put. -/
def spareSlots (s : Kernel) (f : Slot) : Nat :=
  (freeSlots s).card + if (s.icache f).ref = 1 then 1 else 0

section Namex

variable {disk : Nat → Sector} {s t : Kernel} {f r : Slot} {inum : Nat}

@[simp] theorem mem_freeSlots {i : Slot} : i ∈ freeSlots s ↔ (s.icache i).ref = 0 := by
  simp [freeSlots]

/-- What `iget` gives: a slot with one more reference. -/
theorem iget_slot (hget : iget inum s = .ok (r, t)) :
    ∃ c, t = s.set r c ∧ c.ref = (s.icache r).ref + 1 ∧ 0 ≤ (s.icache r).ref ∧ c.node.inum = inum ∧
      ((0 < (s.icache r).ref ∧ c.busy = (s.icache r).busy ∧ (s.icache r).node.inum = inum) ∨
        (c.busy = false ∧ (s.icache r).ref = 0)) := by
  rcases iget_eq_ok hget with ⟨href, hnum, rfl⟩ | ⟨_, href, rfl⟩
  · exact ⟨_, rfl, rfl, href.le, hnum, .inl ⟨href, rfl, hnum⟩⟩
  · exact ⟨_, rfl, by rw [href]; rfl, href.ge, rfl, .inr ⟨rfl, href⟩⟩

/-- One slot gets a reference and another one loses one. -/
theorem spareSlots_move (hne : r ≠ f) (hf : 0 < (s.icache f).ref) (hr : 0 ≤ (s.icache r).ref)
    (htf : (t.icache f).ref = (s.icache f).ref - 1) (htr : (t.icache r).ref = (s.icache r).ref + 1)
    (hother : ∀ j, j ≠ f → j ≠ r → (t.icache j).ref = (s.icache j).ref) :
    spareSlots t r = spareSlots s f := by
  have hrest : (freeSlots t).erase f = (freeSlots s).erase r := by
    ext j
    simp only [Finset.mem_erase, mem_freeSlots]
    by_cases hjf : j = f
    · subst hjf
      constructor
      · rintro ⟨hc, _⟩
        exact absurd rfl hc
      · rintro ⟨_, h0⟩
        omega
    · by_cases hjr : j = r
      · subst hjr
        constructor
        · rintro ⟨_, h0⟩
          omega
        · rintro ⟨hc, _⟩
          exact absurd rfl hc
      · simp [hjf, hjr, hother j hjf hjr]
  have hcard : ∀ (u : Kernel) (k : Slot), (freeSlots u).card =
      ((freeSlots u).erase k).card + if (u.icache k).ref = 0 then 1 else 0 := by
    intro u k
    by_cases hk : (u.icache k).ref = 0
    · rw [if_pos hk, Finset.card_erase_add_one (mem_freeSlots.mpr hk)]
    · rw [if_neg hk, Finset.erase_eq_of_notMem (by rwa [mem_freeSlots])]
      rfl
  have h1 : (t.icache f).ref = 0 ↔ (s.icache f).ref = 1 := by omega
  have h2 : (t.icache r).ref = 1 ↔ (s.icache r).ref = 0 := by omega
  rw [spareSlots, spareSlots, hcard t f, hcard s r, hrest]
  simp only [h1, h2]
  omega

theorem dirlookup_ok {name : List UInt8} {i : UInt16} {off : Nat} (htype : (s.icache f).node.type = tDir)
    (hlook : dirlookupLoop name (s.icache f).node
      (List.range (((s.icache f).node.size.toNat + (bsize - 1)) / bsize)) s.bufs =
        .ok ((some (i, off), (s.icache f).node), s.bufs))
    (hget : iget i.toNat s = .ok (r, t)) : dirlookup f name s = .ok (some (r, off), t) := by
  have hwith : withNode f (fun ip => dirlookupLoop name ip
      (List.range ((ip.size.toNat + (bsize - 1)) / bsize))) s = .ok (some (i, off), s) := by
    have hsame : ({ s with bufs := s.bufs } : Kernel).set f
        { s.icache f with node := (s.icache f).node } = s := by
      simp [Kernel.set]
    exact (withNode_ok hlook).trans (by rw [hsame])
  unfold dirlookup
  rw [bind_of_ok (look_slot s f), if_neg (not_not.mpr htype), bind_of_ok hwith]
  simp only
  rw [bind_of_ok hget]
  rfl

/-- One element of the path. -/
theorem namexLoop_step (names : List (List UInt8)) (h : AtRest disk s) (href : 0 < (s.icache f).ref)
    (htype : (s.file f).type = tDir) (hlink : (s.file f).nlink ≠ 0) (hspare : 2 ≤ spareSlots s f)
    {name : List UInt8} {off : Nat} {i : UInt16} (hi : i.toNat < 200)
    (hne : i.toNat ≠ (s.icache f).node.inum)
    (hlook : dirlookupLoop name (s.file f)
      (List.range (((s.file f).size.toNat + (bsize - 1)) / bsize)) s.bufs =
        .ok ((some (i, off), s.file f), s.bufs)) :
    ∃ r t, namexLoop false f (name :: names) s = namexLoop false r names t ∧ AtRest disk t ∧
      0 < (t.icache r).ref ∧ (t.icache r).node.inum = i.toNat ∧ 2 ≤ spareSlots t r := by
  have hlock := ilock_ok h.accounted href (h.unlocked f href) (by rw [htype]; decide)
  have hacc := (h.accounted.ilock hlock).1
  -- the state in which `dirlookup` is called
  generalize hs₁ : s.set f { s.icache f with busy := true, valid := true, node := s.file f } = s₁ at hlock hacc
  have hself : s₁.icache f = { s.icache f with busy := true, valid := true, node := s.file f } := by
    rw [← hs₁, Kernel.set_icache_self]
  have hother : ∀ j, j ≠ f → s₁.icache j = s.icache j := by
    intro j hj
    rw [← hs₁]
    exact Function.update_of_ne hj _ _
  have hbufs : s₁.bufs = s.bufs := by rw [← hs₁, Kernel.set_bufs]
  have hfree : freeSlots s₁ = freeSlots s := by
    ext j
    by_cases hj : j = f
    · rw [hj, mem_freeSlots, mem_freeSlots, hself]
    · rw [mem_freeSlots, mem_freeSlots, hother j hj]
  have hpos : 0 < (freeSlots s₁).card := by
    rw [hfree]
    unfold spareSlots at hspare
    split at hspare <;> omega
  obtain ⟨e, he⟩ := Finset.card_pos.mp hpos
  obtain ⟨r, s₂, hget⟩ := iget_ok i.toNat (mem_freeSlots.mp he)
  obtain ⟨c, rfl, hcref, hrpos, hcnum, hwas⟩ := iget_slot hget
  have hrf : r ≠ f := by
    rintro rfl
    rcases hwas with ⟨_, _, hnum⟩ | ⟨_, h0⟩
    · rw [hself] at hnum
      exact hne hnum.symm
    · rw [hself] at h0
      simp only at h0
      omega
  rw [hother r hrf] at hcref hrpos hwas
  have hfound : dirlookup f name s₁ = .ok (some (r, off), s₁.set r c) :=
    dirlookup_ok (by rw [hself]; exact htype) (by rw [hself, hbufs]; exact hlook) hget
  have hf₂ : (s₁.set r c).icache f = { s.icache f with busy := true, valid := true, node := s.file f } := by
    rw [← hself]
    exact Function.update_of_ne hrf.symm _ _
  have hput := iunlockput_ok (s := s₁.set r c) (f := f) (by rw [hf₂]) (by rw [hf₂]; exact href)
    (fun hc => by rw [hf₂] at hc; exact hlink hc.2.2)
  have hacc₂ := hacc.iget hi hget
  rw [hf₂] at hput
  have hacc₃ : Accounted imageSb ((s₁.set r c).set f { s.icache f with
      busy := false, valid := true, node := s.file f, ref := (s.icache f).ref - 1 }) := by
    refine hacc₂.set ?_ ?_
    · intro _
      rw [hf₂]
      exact ⟨href, rfl⟩
    · intro _ _
      have hsync := hacc₂.synced f (by rw [hf₂]; exact href) (by rw [hf₂])
      rw [hf₂] at hsync
      exact hsync
  have hrun : namexLoop false f (name :: names) s = namexLoop false r names ((s₁.set r c).set f
      { s.icache f with busy := false, valid := true, node := s.file f, ref := (s.icache f).ref - 1 }) := by
    rw [namexLoop, bind_of_ok hlock, bind_of_ok (look_slot s₁ f), hself, if_neg (not_not.mpr htype),
      if_neg (by simp), bind_of_ok hfound]
    simp only
    rw [bind_of_ok hput]
  -- the state after `iunlockput`
  generalize ht : (s₁.set r c).set f { s.icache f with
    busy := false, valid := true, node := s.file f, ref := (s.icache f).ref - 1 } = t at hacc₃ hrun
  have htf : t.icache f = { s.icache f with
      busy := false, valid := true, node := s.file f, ref := (s.icache f).ref - 1 } := by
    rw [← ht, Kernel.set_icache_self]
  have htr : t.icache r = c := by
    rw [← ht]
    exact (Function.update_of_ne hrf _ _).trans (Function.update_self ..)
  have htj : ∀ j, j ≠ f → j ≠ r → t.icache j = s.icache j := by
    intro j hjf hjr
    rw [← ht]
    exact ((Function.update_of_ne hjf _ _).trans (Function.update_of_ne hjr _ _)).trans (hother j hjf)
  have hbusy : c.busy = false := by
    rcases hwas with ⟨h0, hb, _⟩ | ⟨hb, _⟩
    · rw [hb]
      exact h.unlocked r h0
    · exact hb
  refine ⟨r, t, hrun, ⟨hacc₃, ?_, ?_⟩, ?_, ?_, ?_⟩
  · rw [← ht, Kernel.set_bufs, Kernel.set_bufs, hbufs]
    exact h.disk
  · intro j hj
    by_cases hjf : j = f
    · rw [hjf, htf]
    · by_cases hjr : j = r
      · rw [hjr, htr]
        exact hbusy
      · rw [htj j hjf hjr] at hj ⊢
        exact h.unlocked j hj
  · rw [htr, hcref]
    omega
  · rw [htr]
    exact hcnum
  · rw [spareSlots_move hrf href hrpos (by rw [htf]) (by rw [htr]; exact hcref)
      fun j hjf hjr => by rw [htj j hjf hjr]]
    exact hspare

end Namex

/-! ## Paths through a plan -/

/-- Inode `i` of the plan is this child of directory `cur`; its tree has numbers below `stop`. -/
def Child.At (F : Plan) (cur i stop : Nat) : Child → Prop
  | .file bytes => F.node i = ⟨tFile, bytes, false⟩
  | .dir sub => F.node i = ⟨tDir, direntBytes (dirEntries i cur sub (i + 1)), true⟩ ∧
      Laid F i (i + 1) sub ∧ sub.Named ∧ i + 1 + sub.count ≤ stop

section Plans

variable {F : Plan} {cur d n i : Nat} {es : Entries} {name : List UInt8} {child : Child}

theorem mem_numbered {y : Nat × List UInt8} (hy : y ∈ es.numbered n) (hnamed : es.Named) :
    n ≤ y.1 ∧ y.1 < n + es.count ∧ GoodName y.2 := by
  induction es generalizing n with
  | nil => cases hy
  | file name chunks rest ih =>
      simp only [Entries.count]
      rcases List.mem_cons.mp hy with rfl | hy
      · exact ⟨le_rfl, by simp only; omega, hnamed.1⟩
      · obtain ⟨hlo, hhi, hgood⟩ := ih hy hnamed.2
        exact ⟨by omega, by omega, hgood⟩
  | dir name sub rest _ ihr =>
      simp only [Entries.count]
      rcases List.mem_cons.mp hy with rfl | hy
      · exact ⟨le_rfl, by simp only; omega, hnamed.1⟩
      · obtain ⟨hlo, hhi, hgood⟩ := ihr hy hnamed.2.2
        exact ⟨by omega, by omega, hgood⟩

/-- The first entry with a name stands in the list where `dirlookup` meets it first. -/
theorem find_numbered (hf : es.find name n = some (i, child)) :
    ∃ e, ∃ he : e < (es.numbered n).length, (es.numbered n)[e] = (i, name) ∧
      ∀ j, (hj : j < e) → ((es.numbered n)[j]).2 ≠ name := by
  induction es generalizing n with
  | nil => cases hf
  | file name' chunks rest ih =>
      simp only [Entries.find] at hf
      split at hf
      · rename_i heq
        cases hf
        exact ⟨0, by simp [Entries.numbered], by simp [Entries.numbered, heq], fun j hj => absurd hj (by omega)⟩
      · rename_i hne
        obtain ⟨e, he, hat, hfirst⟩ := ih hf
        refine ⟨e + 1, by simpa [Entries.numbered] using he, hat, ?_⟩
        intro j hj
        cases j with
        | zero => exact hne
        | succ j => exact hfirst j (by omega)
  | dir name' sub rest _ ihr =>
      simp only [Entries.find] at hf
      split at hf
      · rename_i heq
        cases hf
        exact ⟨0, by simp [Entries.numbered], by simp [Entries.numbered, heq], fun j hj => absurd hj (by omega)⟩
      · rename_i hne
        obtain ⟨e, he, hat, hfirst⟩ := ihr hf
        refine ⟨e + 1, by simpa [Entries.numbered] using he, hat, ?_⟩
        intro j hj
        cases j with
        | zero => exact hne
        | succ j => exact hfirst j (by omega)

theorem find_at (hl : Laid F cur n es) (hnamed : es.Named) (hf : es.find name n = some (i, child)) :
    n ≤ i ∧ i < n + es.count ∧ child.At F cur i (n + es.count) := by
  induction es generalizing n with
  | nil => cases hf
  | file name' chunks rest ih =>
      simp only [Entries.find] at hf
      simp only [Entries.count]
      split at hf
      · cases hf
        exact ⟨le_rfl, by omega, hl.1⟩
      · obtain ⟨hlo, hhi, hat⟩ := ih hl.2 hnamed.2 hf
        have hsum : n + 1 + rest.count = n + (1 + rest.count) := by omega
        rw [hsum] at hat
        exact ⟨by omega, by omega, hat⟩
  | dir name' sub rest _ ihr =>
      simp only [Entries.find] at hf
      simp only [Entries.count]
      split at hf
      · cases hf
        refine ⟨le_rfl, by omega, ?_, hl.2.1, hnamed.2.1, by omega⟩
        rw [hl.1, direntBytes_dirEntries]
      · obtain ⟨hlo, hhi, hat⟩ := ihr hl.2.2 hnamed.2.2 hf
        have hsum : n + 1 + sub.count + rest.count = n + (1 + sub.count + rest.count) := by omega
        rw [hsum] at hat
        exact ⟨by omega, by omega, hat⟩

/-- Directory `d` of the plan has these entries. -/
structure DirAt (F : Plan) (d : Nat) (es : Entries) (n : Nat) : Prop where
  node : ∃ parent, 1 ≤ parent ∧ parent < 200 ∧
    F.node d = ⟨tDir, direntBytes (dirEntries d parent es n), true⟩
  laid : Laid F d n es
  named : es.Named
  low : 1 ≤ d
  lt : d < n
  inside : n + es.count ≤ F.n

/-- `dirlookup` finds the entries of a directory of the plan. -/
theorem DirAt.lookup {s : Bufs} {ip : Inode} (h : DirAt F d es n) (hn : F.n ≤ 200) (hbusy : s.busy = [])
    (hd : Describes s.disk ip.toDinode (F.node d)) (hf : es.find name n = some (i, child)) :
    ∃ off, dirlookupLoop name ip (List.range ((ip.size.toNat + (bsize - 1)) / bsize)) s =
      .ok ((some (UInt16.ofNat i, off), ip), s) := by
  obtain ⟨parent, hlo, hhi, hnode⟩ := h.node
  obtain ⟨e, he, hat, hfirst⟩ := find_numbered hf
  have hgood := (mem_numbered (List.getElem_mem he) h.named).2.2
  rw [hat] at hgood
  have hinside := h.inside
  have hlow := h.low
  have hlt := h.lt
  have hall : ∀ y ∈ dirEntries d parent es n, (y.2.length ≤ 14 ∧ 0 ∉ y.2) ∧ 1 ≤ y.1 ∧ y.1 < 200 := by
    intro y hy
    rcases List.mem_cons.mp hy with rfl | hy
    · exact ⟨⟨by simp, by simp⟩, hlow, by simp only; omega⟩
    rcases List.mem_cons.mp hy with rfl | hy
    · exact ⟨⟨by simp, by simp⟩, hlo, hhi⟩
    obtain ⟨hylo, hyhi, hygood⟩ := mem_numbered hy h.named
    exact ⟨⟨hygood.short, hygood.nonzero⟩, by omega, by omega⟩
  have he' : e + 2 < (dirEntries d parent es n).length := by simpa [dirEntries] using he
  have hat' : (dirEntries d parent es n)[e + 2] = (i, name) := hat
  have hname : (dirEntries d parent es n)[e + 2].2 = name := by rw [hat']
  have hfirst' : ∀ j, (hj : j < e + 2) → (dirEntries d parent es n)[j].2 ≠ name := by
    intro j hj
    cases j with
    | zero => exact fun hc => hgood.notdot hc.symm
    | succ j =>
        cases j with
        | zero => exact fun hc => hgood.notdots hc.symm
        | succ j => exact hfirst j (by omega)
  obtain ⟨off, hrun⟩ := dirlookupLoop_found hbusy hd (by rw [hnode]) (fun y hy => (hall y hy).1)
    (fun y hy => (hall y hy).2) he' hname hfirst'
  rw [hat'] at hrun
  exact ⟨off, hrun⟩

end Plans

/-! ## `namei` on an image -/

section Namei

variable {F : Plan} {disk : Nat → Sector}

/-- **The walk of `namex`.**  From a directory of the plan the path leads where it leads in the tree. -/
theorem namexLoop_walk (hn : F.n ≤ 200)
    (hF : ∀ i, 1 ≤ i → i < F.n → Describes disk (dnode disk i) (F.node i))
    {names : List (List UInt8)} {d n i : Nat} {es : Entries} {child : Child} (hd : DirAt F d es n)
    {s : Kernel} {f : Slot} (h : AtRest disk s) (href : 0 < (s.icache f).ref)
    (hnum : (s.icache f).node.inum = d) (hspare : 2 ≤ spareSlots s f)
    (hwalk : walk d es n names = some (i, child)) :
    1 ≤ i ∧ i < F.n ∧ (∀ bytes, child = .file bytes → F.node i = ⟨tFile, bytes, false⟩) ∧
      (∀ sub, child = .dir sub → (F.node i).type = tDir) ∧
        ∃ r t, namexLoop false f names s = .ok (some (r, []), t) ∧ AtRest disk t ∧
          0 < (t.icache r).ref ∧ (t.icache r).node.inum = i := by
  have hinside := hd.inside
  have hlow := hd.low
  have hlt := hd.lt
  induction names generalizing d n es s f with
  | nil =>
      cases hwalk
      obtain ⟨parent, _, _, hnode⟩ := hd.node
      refine ⟨hlow, by omega, ?_, ?_, f, s, rfl, h, href, hnum⟩
      · intro bytes hc
        cases hc
      · intro sub _
        rw [hnode]
  | cons name names ih =>
      cases hfind : es.find name n with
      | none =>
          simp only [walk, hfind] at hwalk
          cases hwalk
      | some found =>
          obtain ⟨j, kid⟩ := found
          obtain ⟨hjlo, hjhi, hat⟩ := find_at hd.laid hd.named hfind
          have hdesc := hF d hlow (by omega)
          have hfile : (s.file f).toDinode = dnode disk d := by
            show dnode s.bufs.disk (s.icache f).node.inum = _
            rw [h.disk, hnum]
          obtain ⟨parent, hplo, hphi, hnode⟩ := hd.node
          have hdesc' : Describes s.bufs.disk (s.file f).toDinode (F.node d) := by
            rw [hfile, h.disk]
            exact hdesc
          have htype : (s.file f).type = tDir := by
            rw [hdesc'.type, hnode]
          have hlink : (s.file f).nlink ≠ 0 := by
            rw [hdesc'.nlink]
            decide
          have hval : (UInt16.ofNat j).toNat = j := by
            rw [UInt16.toNat_ofNat']
            omega
          obtain ⟨off, hlook⟩ := hd.lookup hn h.accounted.idle hdesc' hfind
          obtain ⟨r, t, hstep, hrest, hrefr, hnumr, hsparer⟩ := namexLoop_step names h href htype hlink
            hspare (by omega) (by rw [hval, hnum]; omega) hlook
          rw [hval] at hnumr
          rw [hstep]
          simp only [walk, hfind] at hwalk
          cases kid with
          | file bytes =>
              simp only at hwalk
              split at hwalk
              · rename_i hnil
                cases hwalk
                subst hnil
                refine ⟨by omega, by omega, ?_, ?_, r, t, rfl, hrest, hrefr, hnumr⟩
                · intro b hb
                  cases hb
                  exact hat
                · intro sub hc
                  cases hc
              · cases hwalk
          | dir sub =>
              obtain ⟨hsubnode, hlaid, hnamed, hstop⟩ := hat
              have hsub : DirAt F j sub (j + 1) :=
                ⟨⟨d, hlow, by omega, hsubnode⟩, hlaid, hnamed, by omega, by omega, by omega⟩
              exact ih hsub hrest hrefr hnumr hsparer hwalk hsub.inside hsub.low hsub.lt

theorem find_named {name : List UInt8} {n i : Nat} {es : Entries} {child : Child} (hnamed : es.Named)
    (hf : es.find name n = some (i, child)) : GoodName name ∧ ∀ sub, child = .dir sub → sub.Named := by
  induction es generalizing n with
  | nil => cases hf
  | file name' chunks rest ih =>
      simp only [Entries.find] at hf
      split at hf
      · rename_i heq
        cases hf
        exact ⟨heq ▸ hnamed.1, fun sub hc => Child.noConfusion hc⟩
      · exact ih hnamed.2 hf
  | dir name' sub rest _ ihr =>
      simp only [Entries.find] at hf
      split at hf
      · rename_i heq
        cases hf
        refine ⟨heq ▸ hnamed.1, ?_⟩
        intro sub' hc
        cases hc
        exact hnamed.2.1
      · exact ihr hnamed.2.2 hf

/-- The elements of a path that leads somewhere are names of the tree. -/
theorem walk_named {names : List (List UInt8)} {d n i : Nat} {es : Entries} {child : Child}
    (hnamed : es.Named) (hwalk : walk d es n names = some (i, child)) : ∀ name ∈ names, GoodName name := by
  induction names generalizing d n es with
  | nil => exact fun _ hn => absurd hn List.not_mem_nil
  | cons name names ih =>
      simp only [walk] at hwalk
      cases hfind : es.find name n with
      | none =>
          simp only [hfind] at hwalk
          cases hwalk
      | some found =>
          obtain ⟨j, kid⟩ := found
          obtain ⟨hgood, hsub⟩ := find_named hnamed hfind
          simp only [hfind] at hwalk
          rw [List.forall_mem_cons]
          refine ⟨hgood, ?_⟩
          cases kid with
          | file bytes =>
              simp only at hwalk
              split at hwalk
              · rename_i hnil
                rw [hnil]
                exact fun _ hn => absurd hn List.not_mem_nil
              · cases hwalk
          | dir sub => exact ih (hsub sub rfl) hwalk

/-- `namex` starts at the root. -/
theorem namexStart_ok {s : Kernel} (path : List UInt8) (cwd : Slot) (hpath : path.head? = some slash)
    (h : AtRest disk s) (hfree : 2 ≤ (freeSlots s).card) :
    ∃ f t, namexStart cwd path s = .ok (f, t) ∧ AtRest disk t ∧ 0 < (t.icache f).ref ∧
      (t.icache f).node.inum = 1 ∧ 2 ≤ spareSlots t f := by
  obtain ⟨e, he⟩ := Finset.card_pos.mp (by omega : 0 < (freeSlots s).card)
  obtain ⟨f, t, hget⟩ := iget_ok rootino (mem_freeSlots.mp he)
  obtain ⟨c, rfl, hcref, hpos, hcnum, hwas⟩ := iget_slot hget
  have hself : (s.set f c).icache f = c := Kernel.set_icache_self
  have hother : ∀ j, j ≠ f → (s.set f c).icache j = s.icache j := fun j hj => Function.update_of_ne hj _ _
  refine ⟨f, s.set f c, ?_, ⟨h.accounted.iget (by decide) hget, h.disk, ?_⟩, ?_, ?_, ?_⟩
  · rw [namexStart, if_pos hpath]
    exact hget
  · intro j hj
    by_cases hjf : j = f
    · rw [hjf, hself]
      rcases hwas with ⟨h0, hb, _⟩ | ⟨hb, _⟩
      · rw [hb]
        exact h.unlocked f h0
      · exact hb
    · rw [hother j hjf] at hj ⊢
      exact h.unlocked j hj
  · rw [hself, hcref]
    omega
  · rw [hself]
    exact hcnum
  · -- either the root was there already, or it takes one of the free slots
    have herase : freeSlots (s.set f c) = (freeSlots s).erase f := by
      ext j
      rw [Finset.mem_erase, mem_freeSlots, mem_freeSlots]
      by_cases hjf : j = f
      · rw [hjf, hself, hcref]
        simp
        omega
      · rw [hother j hjf]
        simp [hjf]
    rw [spareSlots, hself, herase, hcref]
    by_cases h0 : (s.icache f).ref = 0
    · have := Finset.card_erase_add_one (mem_freeSlots.mpr h0)
      rw [if_pos (by omega)]
      omega
    · rw [Finset.erase_eq_of_notMem (by rwa [mem_freeSlots])]
      omega

end Namei

/-! ## Trees within the limits -/

/-- Every file has at most `MAXFILE` blocks. -/
def Entries.Short : Entries → Prop
  | .nil => True
  | .file _ chunks rest => chunks.flatten.length ≤ maxfile * bsize ∧ rest.Short
  | .dir _ sub rest => sub.Short ∧ rest.Short

/-- The blocks of the files and directories of a tree. -/
def Entries.blocks : Entries → Nat
  | .nil => 0
  | .file _ chunks rest => blocksFor chunks.flatten.length + rest.blocks
  | .dir _ sub rest => blocksFor (16 * (2 + sub.length)) + (sub.blocks + rest.blocks)

section Limits

variable {F : Plan} {cur n : Nat} {es : Entries}

theorem laid_blocks (h : Laid F cur n es) :
    ∑ j ∈ Finset.Ico n (n + es.count), blocksFor (F.node j).bytes.length = es.blocks := by
  induction es generalizing cur n with
  | nil => simp [Entries.count, Entries.blocks]
  | file name chunks rest ih =>
      have hsum : n + (1 + rest.count) = n + 1 + rest.count := by omega
      rw [Entries.count, Entries.blocks, Finset.sum_eq_sum_Ico_succ_bot (by omega), h.1, hsum, ih h.2]
  | dir name sub rest ihs ihr =>
      have hsum : n + (1 + sub.count + rest.count) = n + 1 + sub.count + rest.count := by omega
      rw [Entries.count, Entries.blocks, Finset.sum_eq_sum_Ico_succ_bot (by omega), h.1,
        length_direntBytes_dots, hsum, ← Finset.sum_Ico_consecutive _ (Nat.le_add_right _ sub.count)
        (Nat.le_add_right _ rest.count), ihs h.2.1, ihr h.2.2]

theorem laid_files_short (h : Laid F cur n es) (hs : es.Short) {j : Nat} (hlo : n ≤ j)
    (hhi : j < n + es.count) (hr : (F.node j).rounded = false) :
    (F.node j).bytes.length ≤ maxfile * bsize := by
  induction es generalizing cur n with
  | nil =>
      simp only [Entries.count] at hhi
      omega
  | file name chunks rest ih =>
      simp only [Entries.count] at hhi
      by_cases hj : j = n
      · rw [hj, h.1]
        exact hs.1
      · exact ih h.2 hs.2 (by omega) (by omega)
  | dir name sub rest ihs ihr =>
      simp only [Entries.count] at hhi
      by_cases hj : j = n
      · rw [hj, h.1] at hr
        cases hr
      · by_cases hjs : j < n + 1 + sub.count
        · exact ihs h.2.1 hs.1 (by omega) hjs
        · exact ihr h.2.2 hs.2 (by omega) (by omega)

theorem planMain_fits {root : Entries} (hcount : 1 + root.count ≤ 199) (hshort : root.Short)
    (hroom : blocksFor (16 * (2 + root.length)) + root.blocks ≤ 995) : (planMain root).Fits := by
  have hlaid := planMain_laid root
  have hlen := length_le_count root
  refine ⟨?_, ?_⟩
  · intro i hi hlt
    rw [planMain_n] at hlt
    by_cases h1 : i = 1
    · rw [h1, planMain_root, length_direntBytes_dots]
      simp only [maxfile, bsize]
      omega
    · cases hr : ((planMain root).node i).rounded with
      | false => exact laid_files_short hlaid hshort (by omega) hlt hr
      | true =>
          have := laid_short hlaid (by omega) hlt hr
          simp only [maxfile, bsize]
          omega
  · rw [Plan.blocks, planMain_n, Finset.sum_eq_sum_Ico_succ_bot (by omega), laid_blocks hlaid,
      planMain_root, length_direntBytes_dots]
    omega

end Limits

/-! ## Contents -/

/-- What the kernel shows of the inode in slot `f`: a file has the size and the bytes of the host's, and
is read as such in any place. -/
def Shown (t : Kernel) (f : Slot) : Child → Prop
  | .file bytes => (t.file f).type = tFile ∧ (t.file f).size.toNat = bytes.length ∧
      ∀ dev off n, ∃ r out u, (FileCall.read off n).run dev f t = .ok ((r, out), u) ∧
        (r.toInt, out) = arrayRead bytes off n
  | .dir _ => (t.file f).type = tDir

section Contents

variable {t : Kernel} {f : Slot} {bytes : List UInt8} {disk : Nat → Sector}

/-- A file of the plan in the kernel. -/
theorem Describes.backs (hd : Describes disk (dnode disk (t.icache f).node.inum) ⟨tFile, bytes, false⟩)
    (h : AtRest disk t) (href : 0 < (t.icache f).ref) : Backs imageSb f bytes t := by
  have hfile : (t.file f).toDinode = dnode disk (t.icache f).node.inum := by
    show dnode t.bufs.disk _ = _
    rw [h.disk]
  have hshort := hd.short
  have hsize : (t.file f).size.toNat = bytes.length := by
    rw [hfile]
    exact hd.size_toNat
  rw [← hfile, ← h.disk] at hd
  refine ⟨h.accounted, href, h.unlocked f href, .inl hd.type, ?_, ?_, ?_, ?_⟩
  · rw [hsize]
    exact hshort
  · refine List.ext_getElem (by rw [length_content, hsize]) ?_
    intro o ho ho'
    have hin : o / bsize < maxfile := by
      simp only [maxfile, bsize] at hshort ⊢
      omega
    simp only [content, List.getElem_map, List.getElem_range]
    rw [hd.byte o hin, List.getD_eq_getElem _ _ ho']
  · intro bn hbn
    rw [hsize] at hbn
    refine (hd.filled.block bn ?_).mpr hbn
    simp only [maxfile, bsize] at hshort hbn ⊢
    omega
  · intro hc
    have hne : tFile ≠ tChecked := by decide
    exact absurd (hd.type.symm.trans hc) hne

end Contents

/-- For every tree within the limits `mkfs` completes, and on its image `namei` finds every path of the
tree and `readi` returns the bytes of the file, whatever the kernel has cached. -/
theorem mkfs_namei_readi {root : Entries} (hnamed : root.Named) (hcount : 1 + root.count ≤ 199)
    (hshort : root.Short) (hroom : blocksFor (16 * (2 + root.length)) + root.blocks ≤ 995) :
    ∃ st, mkfsMain root Image.blank = .ok ((), st) ∧
      ∀ names i child, walk 1 root 2 names = some (i, child) →
        ∀ s cwd, AtRest st.sect s → 2 ≤ (freeSlots s).card →
          ∃ f t, namex cwd (pathOf names) false s = .ok (some (f, []), t) ∧
            (t.icache f).node.inum = i ∧ AtRest st.sect t ∧ Shown t f child := by
  obtain ⟨_, st, hrun, hbuilt, hsect⟩ :=
    (mkfsMain_ends hcount).returns (not_not.mpr (planMain_fits hcount hshort hroom))
  have hn : (planMain root).n = 2 + root.count := planMain_n root
  have hF : ∀ i, 1 ≤ i → i < (planMain root).n →
      Describes st.sect (dnode st.sect i) ((planMain root).node i) := by
    intro i hi hlt
    rw [hsect]
    exact hbuilt.node i hi hlt (by omega)
  have hdir : DirAt (planMain root) 1 root 2 := by
    refine ⟨⟨1, le_rfl, by decide, ?_⟩, planMain_laid root, hnamed, le_rfl, by decide, by rw [hn]⟩
    rw [planMain_root, direntBytes_dirEntries]
  refine ⟨st, hrun, ?_⟩
  intro names i child hwalk s cwd hrest hfree
  obtain ⟨f₀, s₀, hstart, hrest₀, href₀, hnum₀, hspare⟩ :=
    namexStart_ok (pathOf names) cwd rfl hrest hfree
  obtain ⟨hlo, hhi, hfile, hsub, f, t, hloop, hrest', href, hnum⟩ :=
    namexLoop_walk (by omega) hF hdir hrest₀ href₀ hnum₀ hspare hwalk
  refine ⟨f, t, ?_, hnum, hrest', ?_⟩
  · rw [namex, bind_of_ok hstart, elems_pathOf (walk_named hnamed hwalk)]
    exact hloop
  have hd := hF i hlo hhi
  have hdisk : (t.file f).toDinode = dnode st.sect i := by
    show dnode t.bufs.disk (t.icache f).node.inum = _
    rw [hrest'.disk, hnum]
  cases child with
  | file bytes =>
      rw [hfile bytes rfl] at hd
      have hbacks := Describes.backs (by rw [hnum]; exact hd) hrest' href
      refine ⟨?_, hbacks.length_eq.symm, ?_⟩
      · rw [hdisk]
        exact hd.type
      · intro dev off n
        obtain ⟨r, out, u, hread, hval, _⟩ := hbacks.read dev off n
        exact ⟨r, out, u, hread, hval⟩
  | dir sub =>
      show (t.file f).type = tDir
      rw [hdisk, hd.type]
      exact hsub sub rfl

/-- The kernel after it has booted, with no inode cached. -/
def bootKernel (disk : Nat → Sector) : Kernel where
  bufs := ⟨disk, []⟩
  icache := fun _ => { ref := 0, busy := false, valid := false, node := newInode 0 0 }

theorem bootKernel_atRest {disk : Nat → Sector} (h : Consistent imageSb disk) :
    AtRest disk (bootKernel disk) ∧ 2 ≤ (freeSlots (bootKernel disk)).card := by
  have hfree : ∀ i, ¬ 0 < ((bootKernel disk).icache i).ref := fun i => by simp [bootKernel]
  refine ⟨⟨⟨h, rfl, fun i hi => absurd hi (hfree i), fun i hi => absurd hi (hfree i),
    fun i _ hi => absurd hi (hfree i)⟩, rfl, fun i hi => absurd hi (hfree i)⟩, ?_⟩
  simp only [freeSlots, bootKernel, Finset.filter_true, Finset.card_univ, Fintype.card_fin]
  decide

/-- A tree with a file of three bytes in a directory. -/
def nestedFile : Entries := .dir [100] (.file [102] [[1, 2], [3]] .nil) .nil

theorem mkfs_namei_readi_nested : ∃ st, mkfsMain nestedFile Image.blank = .ok ((), st) ∧
    ∃ f t, namex 0 (pathOf [[100], [102]]) false (bootKernel st.sect) = .ok (some (f, []), t) ∧
      (t.icache f).node.inum = 3 ∧ Shown t f (.file [1, 2, 3]) := by
  have hgood : ∀ b : UInt8, b ≠ 0 → b ≠ slash → b ≠ 46 → GoodName [b] := by
    intro b h0 hs hd
    exact ⟨by simp, by simp, by simpa using h0.symm, by simpa using hs.symm, by simpa using hd, by simp⟩
  have hnamed : nestedFile.Named :=
    ⟨hgood 100 (by decide) (by decide) (by decide),
      ⟨hgood 102 (by decide) (by decide) (by decide), trivial⟩, trivial⟩
  have hcount : 1 + nestedFile.count ≤ 199 := by decide
  obtain ⟨st, hrun, hall⟩ := mkfs_namei_readi hnamed hcount ⟨⟨by decide, trivial⟩, trivial⟩ (by decide)
  obtain ⟨hbuilt, hsect⟩ := (mkfsMain_ends hcount).of_eq_ok hrun
  have hcons : Consistent imageSb st.sect := by
    rw [hsect]
    exact hbuilt.consistent
  obtain ⟨hrest, hfree⟩ := bootKernel_atRest hcons
  obtain ⟨f, t, hname, hnum, _, hshown⟩ :=
    hall [[100], [102]] 3 (.file [1, 2, 3]) rfl (bootKernel st.sect) 0 hrest hfree
  exact ⟨st, hrun, f, t, hname, hnum, hshown⟩

end Xv6
end LfsXv6
