import LfsXv6.Xv6.Sysfile

/-!
# Paths — what `namei` and `nameiparent` find

`skipelem` steps a pointer over the bytes of the path and leaves each element in a buffer of `DIRSIZ`
bytes.  The elements are the pieces of the path between slashes; resolving them one after the other from
the root or the working directory gives the inode that `namei` returns, and the parent that `nameiparent`
returns.
-/

namespace LfsXv6
namespace Xv6

open Lib Prog

/-! ## The bytes of a path -/

/-- `while(*path == '/') path++`; byte `p` of a string, and zero behind its end. -/
def skipSlashes (path : List UInt8) (p : Nat) : Nat :=
  if h : path.getD p 0 = slash then
    have : p < path.length := by
      by_contra hge
      rw [List.getD_eq_default _ _ (by omega)] at h
      exact absurd h (by decide)
    skipSlashes path (p + 1)
  else p
termination_by path.length - p

/-- `while(*path != '/' && *path != 0) path++` -/
def skipName (path : List UInt8) (p : Nat) : Nat :=
  if h : path.getD p 0 ≠ slash ∧ path.getD p 0 ≠ 0 then
    have : p < path.length := by
      by_contra hge
      exact h.2 (List.getD_eq_default _ _ (by omega))
    skipName path (p + 1)
  else p
termination_by path.length - p

/-- `memmove(name, s, len)`, with `s` at byte `s` of the path -/
def moveName (path : List UInt8) (s len : Nat) (name : Mem) : Mem :=
  fun o => if o < len then path.getD (s + o) 0 else name o

/-- `skipelem` on the bytes of a path from byte `p` on: where it stops, and the buffer `name`.  An element
that fills the buffer gets no terminator. -/
def skipelemAt (path : List UInt8) (p : Nat) (name : Mem) : Option (Nat × Mem) :=
  let s := skipSlashes path p
  if path.getD s 0 = 0 then none
  else
    let e := skipName path s
    let len := e - s
    let name := if len ≥ 14 then moveName path s 14 name else Function.update (moveName path s len name) len 0
    some (skipSlashes path e, name)

/-- The names in the buffer after each round of a loop over `skipelem`, and the end of the loop. -/
inductive Produces (path : List UInt8) : Nat → Mem → List (List UInt8) → Prop where
  | stop {p : Nat} {name : Mem} : skipelemAt path p name = none → Produces path p name []
  | next {p q : Nat} {name buf : Mem} {names : List (List UInt8)} :
      skipelemAt path p name = some (q, buf) → Produces path q buf names →
      Produces path p name (cname buf :: names)

/-- The pieces of a path between slashes, each cut to `DIRSIZ` bytes. -/
def segments (path : List UInt8) : List (List UInt8) :=
  ((path.splitOn slash).filter (· ≠ [])).map (List.take 14)

section Bytes

variable {path : List UInt8} {p : Nat} {name : Mem} {names : List (List UInt8)}

theorem drop_cons_getD (h : path.getD p 0 ≠ 0) : path.drop p = path.getD p 0 :: path.drop (p + 1) := by
  have hp : p < path.length := by
    by_contra hge
    exact h (List.getD_eq_default _ _ (by omega))
  rw [List.drop_eq_getElem_cons hp, List.getD_eq_getElem _ _ hp]

theorem getD_ne_zero (hzero : 0 ∉ path) (h : path.drop p ≠ []) : path.getD p 0 ≠ 0 := by
  have hp : p < path.length := by
    by_contra hge
    exact h (List.drop_eq_nil_of_le (by omega))
  rw [List.getD_eq_getElem _ _ hp]
  exact fun h0 => hzero (h0 ▸ List.getElem_mem hp)

theorem drop_skipSlashes (path : List UInt8) (p : Nat) :
    path.drop (skipSlashes path p) = (path.drop p).dropWhile (· == slash) := by
  fun_induction skipSlashes path p with
  | case1 p h hlt ih =>
      have hne : path.getD p 0 ≠ 0 := by
        rw [h]
        decide
      rw [ih, drop_cons_getD hne, h]
      rfl
  | case2 p h =>
      by_cases h0 : path.drop p = []
      · rw [h0]
        rfl
      · have hp : p < path.length := by
          by_contra hge
          exact h0 (List.drop_eq_nil_of_le (by omega))
        rw [List.getD_eq_getElem _ _ hp] at h
        rw [List.drop_eq_getElem_cons hp, List.dropWhile_cons_of_neg (by simpa using h)]

theorem skipName_eq (hzero : 0 ∉ path) :
    skipName path p = p + ((path.drop p).takeWhile (· != slash)).length := by
  fun_induction skipName path p with
  | case1 p h hlt ih =>
      rw [ih, drop_cons_getD h.2, List.takeWhile_cons_of_pos (by simpa using h.1), List.length_cons]
      omega
  | case2 p h =>
      by_cases h0 : path.drop p = []
      · rw [h0]
        rfl
      · have hne := getD_ne_zero hzero h0
        have hslash : path.getD p 0 = slash := by
          by_contra hc
          exact h ⟨hc, hne⟩
        rw [drop_cons_getD hne, hslash]
        rfl

/-- What the buffer holds is the list of the bytes that were moved into it, cut to 14. -/
theorem cname_moveName {s len : Nat} (hlen : s + len ≤ path.length) (hzero : 0 ∉ path) :
    cname (if len ≥ 14 then moveName path s 14 name else Function.update (moveName path s len name) len 0) =
      ((path.drop s).take len).take 14 := by
  have hmem : ∀ b ∈ (path.drop s).take len, (b != 0) = true := by
    intro b hb
    rw [bne_iff_ne]
    rintro rfl
    exact hzero (List.mem_of_mem_drop (List.mem_of_mem_take hb))
  have hlength : ((path.drop s).take len).length = len := by
    rw [List.length_take, List.length_drop]
    omega
  have hget : ∀ o, o < len → path.getD (s + o) 0 = ((path.drop s).take len).getD o 0 := by
    intro o ho
    rw [List.getD_eq_getElem _ _ (by omega), List.getD_eq_getElem _ _ (by omega), List.getElem_take,
      List.getElem_drop]
  generalize (path.drop s).take len = elem at *
  split
  · -- no terminator
    rename_i hfull
    refine cname_eq (List.length_take_le _ _) (fun h0 => ?_) (fun o ho => ?_) (fun hlt => ?_)
    · exact absurd (hmem 0 (List.mem_of_mem_take h0)) (by decide)
    · have ho' : o < 14 ∧ o < elem.length := by simpa using ho
      rw [moveName, if_pos ho'.1, hget o (by omega), List.getD_eq_getElem _ _ ho'.2,
        List.getD_eq_getElem _ _ ho, List.getElem_take]
    · rw [List.length_take, hlength] at hlt
      omega
  · rename_i hshort
    rw [List.take_of_length_le (by omega)]
    refine cname_eq (by omega) (fun h0 => absurd (hmem 0 h0) (by decide)) (fun o ho => ?_) (fun _ => ?_)
    · rw [Function.update_of_ne (by omega), moveName, if_pos (by omega), hget o (by omega)]
    · rw [hlength, Function.update_self]

/-- The pointer and the buffer stand for what is left of the path and the element. -/
theorem skipelemAt_eq (hzero : 0 ∉ path) (p : Nat) (name : Mem) :
    (skipelemAt path p name).map (fun r => (cname r.2, path.drop r.1)) = skipelem (path.drop p) := by
  unfold skipelemAt skipelem
  simp only
  rw [← drop_skipSlashes path p]
  by_cases hend : path.drop (skipSlashes path p) = []
  · have h0 : path.getD (skipSlashes path p) 0 = 0 := by
      rw [List.getD_eq_getElem?_getD, ← Nat.add_zero (skipSlashes path p), ← List.getElem?_drop, hend]
      rfl
    rw [if_pos h0, if_pos hend]
    rfl
  · have hname := skipName_eq (p := skipSlashes path p) hzero
    have hpre : ((path.drop (skipSlashes path p)).takeWhile (· != slash)).length ≤
        path.length - skipSlashes path p := by
      rw [← List.length_drop]
      exact (List.takeWhile_prefix _).length_le
    have hle : skipSlashes path p < path.length := by
      by_contra hge
      exact hend (List.drop_eq_nil_of_le (by omega))
    have htake : (path.drop (skipSlashes path p)).take
        ((path.drop (skipSlashes path p)).takeWhile (· != slash)).length =
        (path.drop (skipSlashes path p)).takeWhile (· != slash) :=
      (List.prefix_iff_eq_take.mp (List.takeWhile_prefix _)).symm
    rw [if_neg (getD_ne_zero hzero hend), if_neg hend, hname, Nat.add_sub_cancel_left, Option.map_some,
      cname_moveName (by omega) hzero, htake, List.drop_drop]
    simp only [drop_skipSlashes]

theorem segments_slash (rest : List UInt8) : segments (slash :: rest) = segments rest := by
  have hsplit : (slash :: rest).splitOn slash = [] :: rest.splitOn slash := by
    simpa using List.splitOn_append_cons_self_of_not_mem (a := slash) List.not_mem_nil rest
  rw [segments, hsplit, List.filter_cons_of_neg (by simp), segments]

theorem segments_dropWhile (path : List UInt8) :
    segments (path.dropWhile (· == slash)) = segments path := by
  induction path with
  | nil => rfl
  | cons b path ih =>
      by_cases hb : b = slash
      · rw [List.dropWhile_cons_of_pos (by simpa using hb), ih, hb, segments_slash]
      · rw [List.dropWhile_cons_of_neg (by simpa using hb)]

/-- The first element of a path, and those behind it. -/
theorem segments_eq (path : List UInt8) : segments path =
    match skipelem path with
    | none => []
    | some (name, rest) => name :: segments rest := by
  rw [← segments_dropWhile, skipelem]
  generalize hd : path.dropWhile (· == slash) = d
  simp only
  by_cases hnil : d = []
  · rw [if_pos hnil, hnil]
    rfl
  rw [if_neg hnil]
  simp only [segments_dropWhile]
  have hmem : slash ∉ d.takeWhile (· != slash) := fun hc => by simpa using List.mem_takeWhile_imp hc
  have happend : d.takeWhile (· != slash) ++ d.dropWhile (· != slash) = d := List.takeWhile_append_dropWhile
  have hdrop : d.drop (d.takeWhile (· != slash)).length = d.dropWhile (· != slash) := by
    nth_rewrite 2 [← happend]
    exact List.drop_left
  have hne : d.takeWhile (· != slash) ≠ [] := by
    intro hc
    have hhead := List.head?_dropWhile_not (· == slash) path
    rw [hd] at hhead
    obtain ⟨b, rest, rfl⟩ := List.exists_cons_of_ne_nil hnil
    have hb : b ≠ slash := by simpa using hhead
    rw [List.takeWhile_cons_of_pos (by simpa using hb)] at hc
    cases hc
  rw [hdrop]
  cases hrest : d.dropWhile (· != slash) with
  | nil =>
      rw [hrest, List.append_nil] at happend
      rw [happend] at hmem ⊢
      rw [segments, List.splitOn_eq_singleton hmem, List.filter_cons_of_pos (by simpa using hnil)]
      rfl
  | cons b rest =>
      have hb : b = slash := by
        have hhead := List.head?_dropWhile_not (· != slash) d
        rw [hrest] at hhead
        simpa using hhead
      rw [hrest, hb] at happend
      rw [hb, segments_slash]
      nth_rewrite 1 [← happend]
      rw [segments, List.splitOn_append_cons_self_of_not_mem hmem, List.filter_cons_of_pos (by simpa using hne)]
      rfl

/-- What follows the first element is shorter. -/
theorem length_skipelem {rest : List UInt8} {elem : List UInt8} (h : skipelem path = some (elem, rest)) :
    rest.length < path.length := by
  unfold skipelem at h
  simp only at h
  split at h
  · cases h
  rename_i hne
  cases h
  have hle := (List.dropWhile_suffix (l := path) (· == slash)).length_le
  have hrest := (List.dropWhile_suffix (l := (path.dropWhile (· == slash)).drop
    ((path.dropWhile (· == slash)).takeWhile (· != slash)).length) (· == slash)).length_le
  have hpos : 0 < ((path.dropWhile (· == slash)).takeWhile (· != slash)).length := by
    have hhead := List.head?_dropWhile_not (· == slash) path
    obtain ⟨b, rest, hb⟩ := List.exists_cons_of_ne_nil hne
    rw [hb] at hhead ⊢
    have hbs : b ≠ slash := by simpa using hhead
    rw [List.takeWhile_cons_of_pos (by simpa using hbs)]
    exact Nat.succ_pos _
  have hdpos := List.length_pos_iff.mpr hne
  rw [List.length_drop] at hrest
  omega

theorem elems_eq_segments {m : Nat} (h : path.length ≤ m) : elems m path = segments path := by
  induction m generalizing path with
  | zero =>
      rw [List.eq_nil_of_length_eq_zero (by omega : path.length = 0)]
      rfl
  | succ m ih =>
      rw [elems, segments_eq]
      cases hskip : skipelem path with
      | none => rfl
      | some r =>
          obtain ⟨elem, rest⟩ := r
          have hlt := length_skipelem hskip
          simp only
          rw [ih (by omega)]

/-- A loop over `skipelem` ends after the segments of the path, whatever the buffer holds at first. -/
theorem produces_iff (hzero : 0 ∉ path) : Produces path p name names ↔ names = segments (path.drop p) := by
  constructor
  · intro h
    induction h with
    | @stop p name hstop =>
        have hskip := skipelemAt_eq hzero p name
        rw [hstop, Option.map_none] at hskip
        rw [segments_eq, ← hskip]
    | @next p q name buf names hnext _ ih =>
        have hskip := skipelemAt_eq hzero p name
        rw [hnext, Option.map_some] at hskip
        rw [segments_eq, ← hskip, ih]
  · rintro rfl
    generalize hlen : (path.drop p).length = len
    induction len using Nat.strong_induction_on generalizing p name with
    | _ len ih =>
        have hskip := skipelemAt_eq hzero p name
        rw [segments_eq]
        cases hnext : skipelemAt path p name with
        | none =>
            rw [hnext, Option.map_none] at hskip
            rw [← hskip]
            exact .stop hnext
        | some r =>
            rw [hnext, Option.map_some] at hskip
            have hlt := length_skipelem hskip.symm
            rw [← hskip]
            exact .next hnext (ih _ (by omega) rfl)

end Bytes

/-! ## The way of a path -/

/-- `namei` -/
def namei (cwd : Slot) (path : List UInt8) : Prog Kernel (Option Slot) := do
  let r ← namex cwd path false
  return r.map Prod.fst

/-- `nameiparent`, with the last name -/
def nameiparent (cwd : Slot) (path : List UInt8) : Prog Kernel (Option (Slot × List UInt8)) :=
  namex cwd path true

/-- What a name leads to from inode `d`. -/
def lookupIn (disk : Nat → Sector) (d : Nat) (name : List UInt8) : Option Nat :=
  if (dnode disk d).type = tDir then numberOf disk (dnode disk d) name else none

/-- What names lead to one after the other. -/
def resolve (disk : Nat → Sector) (d : Nat) (names : List (List UInt8)) : Option Nat :=
  names.foldlM (lookupIn disk) d

/-- The directory that all names but the last lead to, and the last name. -/
def resolveParent (disk : Nat → Sector) (d : Nat) (names : List (List UInt8)) :
    Option (Nat × List UInt8) := do
  let name ← names.getLast?
  let e ← resolve disk d names.dropLast
  if (dnode disk e).type = tDir then some (e, name) else none

/-- Some names lead to an inode that is not a directory, or that has not got the next name. -/
def Stuck (disk : Nat → Sector) (d : Nat) (names : List (List UInt8)) : Prop :=
  ∃ before name after e, names = before ++ name :: after ∧ resolve disk d before = some e ∧
    ((dnode disk e).type ≠ tDir ∨ numberOf disk (dnode disk e) name = none)

/-- Names do not lead through free inodes. -/
def Allocated (disk : Nat → Sector) (d : Nat) (names : List (List UInt8)) : Prop :=
  ∀ before name after e, names = before ++ name :: after → resolve disk d before = some e →
    (dnode disk e).type ≠ 0

section Resolve

variable {disk : Nat → Sector} {d e : Nat} {name : List UInt8} {names : List (List UInt8)}

theorem resolve_cons : resolve disk d (name :: names) =
    (lookupIn disk d name).bind fun e => resolve disk e names := rfl

theorem resolve_eq_none : resolve disk d names = none ↔ Stuck disk d names := by
  induction names generalizing d with
  | nil =>
      refine iff_of_false (Option.some_ne_none d) ?_
      rintro ⟨before, name, after, e, hsplit, _⟩
      exact absurd hsplit (by simp)
  | cons name names ih =>
      rw [resolve_cons]
      constructor
      · intro hnone
        cases hlook : lookupIn disk d name with
        | none =>
            refine ⟨[], name, names, d, rfl, rfl, ?_⟩
            unfold lookupIn at hlook
            split at hlook
            · exact .inr hlook
            · rename_i hdir
              exact .inl hdir
        | some e =>
            rw [hlook, Option.bind_some, ih] at hnone
            obtain ⟨before, y, after, e', hsplit, hres, hbad⟩ := hnone
            refine ⟨name :: before, y, after, e', by rw [hsplit]; rfl, ?_, hbad⟩
            rw [resolve_cons, hlook, Option.bind_some, hres]
      · rintro ⟨before, y, after, e', hsplit, hres, hbad⟩
        cases before with
        | nil =>
            cases hsplit
            cases hres
            have hlook : lookupIn disk d name = none := by
              unfold lookupIn
              rcases hbad with hdir | hno
              · exact if_neg hdir
              · rw [hno, ite_self]
            rw [hlook, Option.bind_none]
        | cons x before =>
            cases hsplit
            rw [resolve_cons] at hres
            cases hlook : lookupIn disk d name with
            | none => rfl
            | some e =>
                rw [hlook, Option.bind_some] at hres
                rw [Option.bind_some, ih]
                exact ⟨before, y, after, e', rfl, hres, hbad⟩

theorem Allocated.head (h : Allocated disk d (name :: names)) : (dnode disk d).type ≠ 0 :=
  h [] name names d rfl rfl

theorem Allocated.tail (h : Allocated disk d (name :: names)) (he : lookupIn disk d name = some e) :
    Allocated disk e names := by
  intro before y after e' hsplit hres
  refine h (name :: before) y after e' (by rw [hsplit]; rfl) ?_
  rw [resolve_cons, he, Option.bind_some, hres]

/-- The loop of `namex` stops one level early. -/
theorem parentOf_eq : parentOf disk d names = resolveParent disk d names := by
  induction names generalizing d with
  | nil => rfl
  | cons name names ih =>
      rw [parentOf, resolveParent]
      cases names with
      | nil =>
          by_cases hdir : (dnode disk d).type = tDir
          · simp [resolve, hdir]
          · simp [resolve, hdir]
      | cons y names =>
          simp only [reduceCtorEq, if_false, List.getLast?_cons_cons, List.dropLast_cons_cons, resolve_cons,
            lookupIn]
          split
          · simp
          · rename_i hdir
            rw [if_pos (not_not.mp hdir)]
            cases hnum : numberOf disk (dnode disk d) name with
            | none => simp
            | some i =>
                simp only [ih, Option.bind_some]
                rfl

end Resolve

/-! ## References on the way -/

/-- A file system that paths go through: no directory has holes, entries lead to inodes of the table, and
an inode that has lost its links is free or still referred to. -/
structure Walkable (sb : Superblock) (s : Kernel) : Prop where
  accounted : Accounted sb s
  counts : ∀ j, 0 ≤ (s.icache j).ref
  root : rootino < sb.ninodes.toNat
  table : ∀ d, d < sb.ninodes.toNat → (dnode s.bufs.disk d).type = tDir →
    Table s.bufs.disk (dnode s.bufs.disk d)
  target : ∀ d name i, d < sb.ninodes.toNat → (dnode s.bufs.disk d).type = tDir →
    numberOf s.bufs.disk (dnode s.bufs.disk d) name = some i → i < sb.ninodes.toNat
  kept : ∀ i, i < sb.ninodes.toNat → (dnode s.bufs.disk i).type ≠ 0 →
    (dnode s.bufs.disk i).nlink ≠ 0 ∨ ∃ j, 0 < (s.icache j).ref ∧ (s.icache j).node.inum = i

/-- From `s` to `t` only these references were added, each to the inode with the number. -/
structure Walk (sb : Superblock) (s t : Kernel) (l : List (Slot × Nat)) : Prop where
  accounted : Accounted sb t
  bufs : t.bufs = s.bufs
  ref : ∀ j, (t.icache j).ref = (s.icache j).ref + ((l.map Prod.fst).count j : Nat)
  number : ∀ x ∈ l, (t.icache x.1).node.inum = x.2
  stays : ∀ j, 0 < (s.icache j).ref → (t.icache j).node.inum = (s.icache j).node.inum

namespace Walk

variable {sb : Superblock} {s t u : Kernel} {f r : Slot} {d inum : Nat} {l l' : List (Slot × Nat)} {x : Unit}

theorem refl (h : Accounted sb s) : Walk sb s s [] :=
  ⟨h, rfl, fun _ => (Int.add_zero _).symm, fun _ hx => absurd hx List.not_mem_nil, fun _ _ => rfl⟩

theorem ref_pos (h : Walk sb s t l) (hw : Walkable sb s) {y : Slot × Nat} (hy : y ∈ l) :
    0 < (t.icache y.1).ref := by
  have hcount := List.count_pos_iff.mpr (List.mem_map_of_mem (f := Prod.fst) hy)
  have hs := hw.counts y.1
  rw [h.ref]
  omega

theorem number_lt (h : Walk sb s t l) (hw : Walkable sb s) {y : Slot × Nat} (hy : y ∈ l) :
    y.2 < sb.ninodes.toNat := by
  rw [← h.number y hy]
  exact h.accounted.number _ (h.ref_pos hw hy)

theorem swap {a b : Slot × Nat} (h : Walk sb s t (a :: b :: l)) : Walk sb s t (b :: a :: l) := by
  refine ⟨h.accounted, h.bufs, fun j => ?_, fun y hy => h.number y ?_, h.stays⟩
  · rw [((List.Perm.swap a b l).map Prod.fst).count_eq j]
    exact h.ref j
  · exact (List.Perm.swap a b l).mem_iff.mp hy

/-- Slot `f` has got another value. -/
theorem set (h : Walk sb s t l) (hw : Walkable sb s) {c : Cached} (hacc : Accounted sb (t.set f c))
    (href : ∀ j, (if j = f then c.ref else (t.icache j).ref) =
      (s.icache j).ref + ((l'.map Prod.fst).count j : Nat))
    (hinum : 0 < (t.icache f).ref → c.node.inum = (t.icache f).node.inum)
    (hnew : ∀ y ∈ l', y ∈ l ∨ (y.1 = f ∧ c.node.inum = y.2)) : Walk sb s (t.set f c) l' := by
  have hat : ∀ j, 0 < (t.icache j).ref → ((t.set f c).icache j).node.inum = (t.icache j).node.inum := by
    intro j hj
    rw [Kernel.set_icache]
    split
    · rename_i hjf
      rw [hjf] at hj ⊢
      exact hinum hj
    · rfl
  refine ⟨hacc, h.bufs, fun j => ?_, fun y hy => ?_, fun j hj => ?_⟩
  · rw [← href j, Kernel.set_icache]
    split <;> rfl
  · rcases hnew y hy with hold | ⟨hyf, hy2⟩
    · rw [hat _ (h.ref_pos hw hold)]
      exact h.number y hold
    · rw [hyf, Kernel.set_icache_self]
      exact hy2
  · rw [hat j (by rw [h.ref]; omega)]
    exact h.stays j hj

theorem iget (h : Walk sb s t l) (hw : Walkable sb s) (hnum : inum < sb.ninodes.toNat)
    (hrun : Xv6.iget inum t = .ok (r, u)) : Walk sb s u ((r, inum) :: l) := by
  have hacc := h.accounted.iget hnum hrun
  rcases iget_eq_ok hrun with ⟨_, hsame, rfl⟩ | ⟨_, hfree, rfl⟩
  · refine h.set hw hacc (fun j => ?_) (fun _ => rfl) (fun y hy => ?_)
    · rw [List.map_cons]
      split
      · rename_i hj
        rw [hj, List.count_cons_self, h.ref]
        push_cast
        omega
      · rename_i hj
        rw [List.count_cons_of_ne (Ne.symm hj), h.ref]
    · rcases List.mem_cons.mp hy with rfl | hy
      · exact .inr ⟨rfl, hsame⟩
      · exact .inl hy
  · refine h.set hw hacc (fun j => ?_) (fun hpos => ?_) (fun y hy => ?_)
    · rw [List.map_cons]
      have hr := h.ref r
      have hs := hw.counts r
      split
      · rename_i hj
        rw [hj, List.count_cons_self]
        simp only [Cached.fresh]
        push_cast
        omega
      · rename_i hj
        rw [List.count_cons_of_ne (Ne.symm hj), h.ref]
    · omega
    · rcases List.mem_cons.mp hy with rfl | hy
      · exact .inr ⟨rfl, rfl⟩
      · exact .inl hy

/-- A slot has got a value with the same number and count. -/
theorem same (h : Walk sb s t l) (hw : Walkable sb s) {c : Cached} (hacc : Accounted sb (t.set f c))
    (href : c.ref = (t.icache f).ref) (hinum : c.node.inum = (t.icache f).node.inum) :
    Walk sb s (t.set f c) l := by
  refine h.set hw hacc (fun j => ?_) (fun _ => hinum) (fun y hy => .inl hy)
  rw [← h.ref j]
  split
  · rename_i hj
    rw [hj, href]
  · rfl

/-- `ilock` has the inode of the disk in memory. -/
theorem ilock (h : Walk sb s t ((f, d) :: l)) (hw : Walkable sb s) (hrun : Xv6.ilock f t = .ok (x, u)) :
    Walk sb s u ((f, d) :: l) ∧ (u.icache f).node.toDinode = dnode s.bufs.disk d ∧
      (dnode s.bufs.disk d).type ≠ 0 ∧ (u.icache f).busy = true ∧
      ∀ j, j ≠ f → u.icache j = t.icache j := by
  obtain ⟨hacc, hbufs, href, hv⟩ := h.accounted.ilock hrun
  obtain ⟨_, node, ht, hnode⟩ := ilock_eq_ok h.accounted.idle hrun
  have hinum : node.inum = (t.icache f).node.inum := by
    rcases hnode with ⟨_, rfl⟩ | ⟨_, hinum, _⟩
    · rfl
    · exact hinum
  have hwalk : Walk sb s u ((f, d) :: l) := by
    rw [ht] at hacc ⊢
    exact h.same hw hacc rfl hinum
  obtain ⟨hsync, htype⟩ := hacc.synced f href hv
  rw [hbufs, h.bufs, hwalk.number _ List.mem_cons_self] at hsync
  refine ⟨hwalk, hsync, ?_, ?_, fun j hj => ?_⟩
  · rwa [← hsync]
  · rw [ht, Kernel.set_icache_self]
  · rw [ht]
    exact Function.update_of_ne hj _ _

theorem iunlock (h : Walk sb s t l) (hw : Walkable sb s) (hrun : Xv6.iunlock f t = .ok (x, u)) :
    Walk sb s u l := by
  have hacc := h.accounted.iunlock hrun
  rw [iunlock_eq_ok hrun] at hacc ⊢
  exact h.same hw hacc rfl rfl

/-- No reference of a path is the last one to an inode without links. -/
theorem keep (h : Walk sb s t ((f, d) :: l)) (hw : Walkable sb s) :
    ¬ ((t.icache f).ref = 1 ∧ (t.icache f).valid = true ∧ (t.icache f).node.nlink = 0) := by
  rintro ⟨hone, hv, hlink⟩
  obtain ⟨hsync, htype⟩ := h.accounted.synced f (by omega) hv
  rw [h.number _ List.mem_cons_self, h.bufs] at hsync
  have hnum : d < sb.ninodes.toNat := h.number_lt hw List.mem_cons_self
  have htype' : (dnode s.bufs.disk d).type ≠ 0 := by rwa [← hsync]
  rcases hw.kept d hnum htype' with hkept | ⟨j, hj, hjd⟩
  · rw [← hsync] at hkept
    exact hkept hlink
  · -- the slot that had the inode before is the slot of the path
    have hjt : 0 < (t.icache j).ref := by
      rw [h.ref]
      omega
    have hjf : j = f := by
      refine h.accounted.unique j f hjt (by omega) ?_
      rw [h.stays j hj, hjd]
      exact (h.number _ List.mem_cons_self).symm
    rw [hjf] at hj
    have href := h.ref f
    rw [List.map_cons, List.count_cons_self] at href
    push_cast at href
    omega

theorem iput (h : Walk sb s t ((f, d) :: l)) (hw : Walkable sb s) :
    Xv6.iput f t = .ok ((), t.set f { t.icache f with ref := (t.icache f).ref - 1 }) ∧
      Walk sb s (t.set f { t.icache f with ref := (t.icache f).ref - 1 }) l := by
  refine ⟨iput_ok (h.keep hw), ?_⟩
  have hpos : 0 < (t.icache f).ref := h.ref_pos hw (List.mem_cons_self (a := (f, d)))
  refine h.set hw ?_ (fun j => ?_) (fun _ => rfl) (fun y hy => .inl (List.mem_cons_of_mem _ hy))
  · exact h.accounted.set (fun _ => ⟨hpos, rfl⟩) fun _ hv => h.accounted.synced f hpos hv
  · have hj := h.ref j
    rw [List.map_cons] at hj
    split
    · rename_i hjf
      rw [hjf, List.count_cons_self] at hj
      rw [hjf]
      push_cast at hj
      simp only
      omega
    · rename_i hjf
      rw [List.count_cons_of_ne (Ne.symm hjf)] at hj
      exact hj

theorem iunlockput (h : Walk sb s t ((f, d) :: l)) (hw : Walkable sb s)
    (hrun : Xv6.iunlockput f t = .ok (x, u)) :
    Walk sb s u l ∧ u = t.set f { t.icache f with busy := false, ref := (t.icache f).ref - 1 } := by
  unfold Xv6.iunlockput at hrun
  obtain ⟨_, v, hunlock, hput⟩ := bind_eq_ok hrun
  obtain ⟨hv, hwalk⟩ := (h.iunlock hw hunlock).iput hw
  rw [hv] at hput
  cases hput
  refine ⟨hwalk, ?_⟩
  rw [iunlock_eq_ok hunlock]
  simp only [Kernel.set_icache_self, Kernel.set_set]

end Walk

/-! ## `namex` -/

/-- A slot was returned for an inode, with a reference, and no other reference was added; or neither. -/
def Returned (sb : Superblock) (s t : Kernel) : Option Slot → Option Nat → Prop
  | none, none => Walk sb s t []
  | some ip, some i => Walk sb s t [(ip, i)]
  | _, _ => False

/-- What `namex` finds: the inode that the names lead to, or the parent and the last name. -/
def targetOf (nameiparent : Bool) (disk : Nat → Sector) (d : Nat) (names : List (List UInt8)) :
    Option (Nat × List UInt8) :=
  if nameiparent then parentOf disk d names else (resolve disk d names).map fun i => (i, [])

/-- A state in which a call of `namex` is not stopped: no inode is locked, and there are two free slots. -/
structure Roomy (s : Kernel) : Prop where
  unlocked : ∀ j, 0 < (s.icache j).ref → (s.icache j).busy = false
  free : ∃ a b, a ≠ b ∧ (s.icache a).ref = 0 ∧ (s.icache b).ref = 0

section Namex

variable {sb : Superblock} {s t u : Kernel} {f cwd : Slot} {d : Nat} {names : List (List UInt8)}
variable {path name : List UInt8} {res : Option (Slot × List UInt8)} {np : Bool}

theorem targetOf_cons (np : Bool) (disk : Nat → Sector) (d : Nat) (name : List UInt8)
    (names : List (List UInt8)) : targetOf np disk d (name :: names) =
      if (dnode disk d).type ≠ tDir then none
      else if np ∧ names = [] then some (d, name)
      else (numberOf disk (dnode disk d) name).bind fun i => targetOf np disk i names := by
  cases np with
  | false =>
      simp only [targetOf, Bool.false_eq_true, if_false, resolve_cons, lookupIn, false_and]
      by_cases hdir : (dnode disk d).type = tDir
      · rw [if_pos hdir, if_neg (not_not.mpr hdir), Option.map_bind]
        rfl
      · rw [if_neg hdir, if_pos hdir]
        rfl
  | true =>
      simp only [targetOf, if_true, parentOf, true_and]
      split
      · rfl
      · split
        · rfl
        · cases numberOf disk (dnode disk d) name with
          | none => rfl
          | some i => rfl

/-- The directory under the lock of `namex` is in order. -/
theorem Walkable.locked_table (hw : Walkable sb s) (h : Walk sb s t [(f, d)])
    (hnode : (t.icache f).node.toDinode = dnode s.bufs.disk d)
    (hdir : (dnode s.bufs.disk d).type = tDir) : Table t.bufs.disk (t.icache f).node.toDinode := by
  rw [hnode, h.bufs]
  exact hw.table d (h.number_lt hw List.mem_cons_self) hdir

theorem namexLoop_resolves (hw : Walkable sb s) (h : Walk sb s t [(f, d)])
    (hnames : ∀ name ∈ names, name.length ≤ 14 ∧ 0 ∉ name)
    (hrun : namexLoop np f names t = .ok (res, u)) :
    Returned sb s u (res.map Prod.fst) ((targetOf np s.bufs.disk d names).map Prod.fst) ∧
      res.map Prod.snd = (targetOf np s.bufs.disk d names).map Prod.snd := by
  induction names generalizing f d t with
  | nil =>
      unfold namexLoop at hrun
      cases np with
      | true =>
          obtain ⟨hput, hwalk⟩ := h.iput hw
          rw [if_pos rfl, bind_of_ok hput] at hrun
          cases hrun
          exact ⟨hwalk, rfl⟩
      | false =>
          cases hrun
          exact ⟨h, rfl⟩
  | cons name names ih =>
      unfold namexLoop at hrun
      obtain ⟨_, t₁, hlock, hrest⟩ := bind_eq_ok hrun
      obtain ⟨h₁, hnode, _, _, _⟩ := h.ilock hw hlock
      rw [bind_of_ok (look_slot t₁ f)] at hrest
      have htype : (t₁.icache f).node.type = (dnode s.bufs.disk d).type := congrArg Dinode.type hnode
      rw [targetOf_cons]
      split at hrest
      · -- not a directory
        rename_i hnot
        obtain ⟨_, v, hput, hpure⟩ := bind_eq_ok hrest
        cases hpure
        rw [if_pos (by rwa [← htype])]
        exact ⟨(h₁.iunlockput hw hput).1, rfl⟩
      rename_i hdir
      have hdir' : (dnode s.bufs.disk d).type = tDir := htype.symm.trans (not_not.mp hdir)
      rw [if_neg (not_not.mpr hdir')]
      split at hrest
      · -- the last element, and the parent is asked for
        rename_i hlast
        obtain ⟨_, v, hunlock, hpure⟩ := bind_eq_ok hrest
        cases hpure
        rw [if_pos hlast]
        exact ⟨h₁.iunlock hw hunlock, rfl⟩
      rename_i hmore
      rw [if_neg hmore]
      have hnum : d < sb.ninodes.toNat := h.number_lt hw List.mem_cons_self
      obtain ⟨hshort, hzero⟩ := hnames name List.mem_cons_self
      obtain ⟨res', t₂, hfind, hrest⟩ := bind_eq_ok hrest
      obtain ⟨_, ⟨hnone, rfl, hv⟩ | ⟨i, r, off, hsome, rfl, hget⟩⟩ :=
        dirlookup_run h₁.accounted.idle (hw.locked_table h₁ hnode hdir') hshort hzero hfind
      · rw [hnode, h₁.bufs] at hnone
        rw [hv] at hrest
        obtain ⟨_, v, hput, hpure⟩ := bind_eq_ok hrest
        cases hpure
        rw [hnone]
        exact ⟨(h₁.iunlockput hw hput).1, rfl⟩
      · rw [hnode, h₁.bufs] at hsome
        obtain ⟨_, t₃, hput, hrest⟩ := bind_eq_ok hrest
        have h₂ := h₁.iget hw (hw.target d name i hnum hdir' hsome) hget
        rw [hsome, Option.bind_some]
        exact ih (h₂.swap.iunlockput hw hput).1 (fun y hy => hnames y (List.mem_cons_of_mem _ hy)) hrest

/-- One of the two free slots is left to the path. -/
theorem Roomy.spare (h : Roomy s) (hwalk : Walk sb s t [(f, d)]) : ∃ j, j ≠ f ∧ (t.icache j).ref = 0 := by
  obtain ⟨a, b, hab, ha, hb⟩ := h.free
  have hcount : ∀ j, j ≠ f → (t.icache j).ref = (s.icache j).ref := by
    intro j hj
    rw [hwalk.ref, List.map_cons, List.map_nil, List.count_cons_of_ne (Ne.symm hj), List.count_nil]
    exact Int.add_zero _
  by_cases haf : a = f
  · have hbf : b ≠ f := fun hc => hab (haf.trans hc.symm)
    exact ⟨b, hbf, (hcount b hbf).trans hb⟩
  · exact ⟨a, haf, (hcount a haf).trans ha⟩

/-- `iget` locks nothing, and leaves the locks as they are. -/
theorem iget_busy {inum : Nat} {r : Slot} (hrun : iget inum t = .ok (r, u)) (j : Slot) :
    (0 < (t.icache j).ref ∧ (u.icache j).busy = (t.icache j).busy) ∨
      ((t.icache j).ref ≤ 0 ∧ (0 < (u.icache j).ref → (u.icache j).busy = false)) := by
  rcases iget_eq_ok hrun with ⟨href, _, rfl⟩ | ⟨_, hfree, rfl⟩
  · by_cases hj : j = r
    · rw [hj, Kernel.set_icache_self]
      exact .inl ⟨href, rfl⟩
    · rw [Kernel.set_icache, if_neg hj]
      rcases lt_or_ge 0 (t.icache j).ref with hpos | hneg
      · exact .inl ⟨hpos, rfl⟩
      · exact .inr ⟨hneg, fun hc => absurd hc (by omega)⟩
  · by_cases hj : j = r
    · rw [hj, Kernel.set_icache_self]
      exact .inr ⟨hfree.le, fun _ => rfl⟩
    · rw [Kernel.set_icache, if_neg hj]
      rcases lt_or_ge 0 (t.icache j).ref with hpos | hneg
      · exact .inl ⟨hpos, rfl⟩
      · exact .inr ⟨hneg, fun hc => absurd hc (by omega)⟩

theorem namexLoop_returns (np : Bool) (hw : Walkable sb s) (hroom : Roomy s) (h : Walk sb s t [(f, d)])
    (hunlocked : ∀ j, 0 < (t.icache j).ref → (t.icache j).busy = false)
    (hnames : ∀ name ∈ names, name.length ≤ 14 ∧ 0 ∉ name)
    (halloc : Allocated s.bufs.disk d names) : ∃ r, namexLoop np f names t = .ok r := by
  induction names generalizing f d t with
  | nil =>
      unfold namexLoop
      cases np with
      | true =>
          rw [if_pos rfl, bind_of_ok (h.iput hw).1]
          exact ⟨_, rfl⟩
      | false => exact ⟨_, rfl⟩
  | cons name names ih =>
      have href : 0 < (t.icache f).ref := h.ref_pos hw (List.mem_cons_self (a := (f, d)))
      have hfile : (t.file f).type = (dnode s.bufs.disk d).type := by
        rw [Kernel.file, h.number _ List.mem_cons_self, h.bufs]
      have hlock := ilock_ok h.accounted href (hunlocked f href) (by rw [hfile]; exact halloc.head)
      generalize t.set f { t.icache f with busy := true, valid := true, node := t.file f } = t₁ at hlock
      obtain ⟨h₁, hnode, _, hbusy₁, hother⟩ := h.ilock hw hlock
      have href₁ : 0 < (t₁.icache f).ref := h₁.ref_pos hw (List.mem_cons_self (a := (f, d)))
      unfold namexLoop
      rw [bind_of_ok hlock, bind_of_ok (look_slot t₁ f)]
      have hput := iunlockput_ok hbusy₁ href₁ (h₁.keep hw)
      split
      · rw [bind_of_ok hput]
        exact ⟨_, rfl⟩
      rename_i hdir
      split
      · rw [bind_of_ok (iunlock_ok hbusy₁ href₁)]
        exact ⟨_, rfl⟩
      obtain ⟨hshort, hzero⟩ := hnames name List.mem_cons_self
      have hdir' : (dnode s.bufs.disk d).type = tDir :=
        (congrArg Dinode.type hnode).symm.trans (not_not.mp hdir)
      have hlook := dirlookup_eq h₁.accounted.idle (hw.locked_table h₁ hnode hdir') (not_not.mp hdir) hzero
      rw [List.take_of_length_le hshort] at hlook
      cases hindex : indexOf t₁.bufs.disk (t₁.icache f).node.toDinode name with
      | none =>
          rw [hindex] at hlook
          rw [bind_of_ok hlook]
          simp only
          rw [bind_of_ok hput]
          exact ⟨_, rfl⟩
      | some k =>
          obtain ⟨j, hjf, hfree⟩ := hroom.spare h₁
          obtain ⟨r, t₂, hget⟩ := iget_ok
            (entryAt t₁.bufs.disk (t₁.icache f).node.toDinode k).inum.toNat hfree
          rw [hindex] at hlook
          simp only [hget, Except.map] at hlook
          rw [bind_of_ok hlook]
          have hi : numberOf s.bufs.disk (dnode s.bufs.disk d) name =
              some (entryAt t₁.bufs.disk (t₁.icache f).node.toDinode k).inum.toNat := by
            rw [numberOf_eq, ← hnode, ← h₁.bufs, hindex, Option.map_some]
          have hnum : d < sb.ninodes.toNat := h.number_lt hw List.mem_cons_self
          have h₂ := h₁.iget hw (hw.target d name _ hnum hdir' hi) hget
          have hbusy₂ : (t₂.icache f).busy = true := by
            rcases iget_busy hget f with ⟨_, hsame⟩ | ⟨hneg, _⟩
            · rw [hsame, hbusy₁]
            · omega
          have href₂ : 0 < (t₂.icache f).ref := h₂.ref_pos hw (y := (f, d)) (by simp)
          have hput₂ := iunlockput_ok hbusy₂ href₂ (h₂.swap.keep hw)
          simp only
          rw [bind_of_ok hput₂]
          refine ih (h₂.swap.iunlockput hw hput₂).1 (fun j hj => ?_)
            (fun y hy => hnames y (List.mem_cons_of_mem _ hy)) (halloc.tail ?_)
          · rw [Kernel.set_icache] at hj ⊢
            split
            · rfl
            · rename_i hjne
              rw [if_neg hjne] at hj
              rcases iget_busy hget j with ⟨hpos, hsame⟩ | ⟨_, hnew⟩
              · rw [hsame, hother j hjne]
                exact hunlocked j (by rwa [hother j hjne] at hpos)
              · exact hnew hj
          · rw [lookupIn, if_pos hdir', hi]

theorem namexStart_resolves (hw : Walkable sb s) (hcwd : 0 < (s.icache cwd).ref)
    (hrun : namexStart cwd path s = .ok (f, u)) : Walk sb s u [(f, startOf s cwd path)] := by
  have h := Walk.refl hw.accounted
  unfold namexStart at hrun
  unfold startOf
  split at hrun
  · rename_i hslash
    rw [if_pos hslash]
    exact h.iget hw hw.root hrun
  · rename_i hslash
    rw [if_neg hslash]
    cases hrun
    refine h.set hw ?_ (fun j => ?_) (fun _ => rfl) (fun y hy => ?_)
    · exact hw.accounted.set (fun _ => ⟨hcwd, rfl⟩) fun _ hv => hw.accounted.synced _ hcwd hv
    · split
      · rename_i hj
        rw [hj]
        simp
      · rename_i hj
        rw [List.map_cons, List.count_cons_of_ne (Ne.symm hj)]
        simp
    · rw [List.mem_singleton.mp hy]
      exact .inr ⟨rfl, rfl⟩

theorem namexStart_returns (path : List UInt8) (hroom : Roomy s) (hcwd : 0 < (s.icache cwd).ref) : ∃ f u,
    namexStart cwd path s = .ok (f, u) ∧ ∀ j, 0 < (u.icache j).ref → (u.icache j).busy = false := by
  unfold namexStart
  split
  · obtain ⟨a, _, _, ha, _⟩ := hroom.free
    obtain ⟨f, u, hget⟩ := iget_ok rootino ha
    refine ⟨f, u, hget, fun j hj => ?_⟩
    rcases iget_busy hget j with ⟨hpos, hsame⟩ | ⟨_, hnew⟩
    · rw [hsame, hroom.unlocked j hpos]
    · exact hnew hj
  · refine ⟨cwd, s.set cwd { s.icache cwd with ref := (s.icache cwd).ref + 1 }, rfl, fun j hj => ?_⟩
    rw [Kernel.set_icache] at hj ⊢
    split
    · exact hroom.unlocked cwd hcwd
    · rename_i hj'
      rw [if_neg hj'] at hj
      exact hroom.unlocked j hj

theorem mem_segments (hpath : 0 ∉ path) (h : name ∈ segments path) : name.length ≤ 14 ∧ 0 ∉ name := by
  rw [← elems_eq_segments (le_refl path.length)] at h
  exact (mem_elems h).imp_right fun hzero => hzero hpath

theorem namex_resolves (hw : Walkable sb s) (hcwd : 0 < (s.icache cwd).ref) (hpath : 0 ∉ path)
    (hrun : namex cwd path np s = .ok (res, u)) :
    Returned sb s u (res.map Prod.fst)
        ((targetOf np s.bufs.disk (startOf s cwd path) (segments path)).map Prod.fst) ∧
      res.map Prod.snd =
        (targetOf np s.bufs.disk (startOf s cwd path) (segments path)).map Prod.snd := by
  unfold namex at hrun
  obtain ⟨ip, v, hstart, hloop⟩ := bind_eq_ok hrun
  rw [elems_eq_segments (le_refl _)] at hloop
  exact namexLoop_resolves hw (namexStart_resolves hw hcwd hstart) (fun _ => mem_segments hpath) hloop

theorem namex_returns (np : Bool) (hw : Walkable sb s) (hcwd : 0 < (s.icache cwd).ref) (hpath : 0 ∉ path)
    (hroom : Roomy s) (halloc : Allocated s.bufs.disk (startOf s cwd path) (segments path)) :
    ∃ res u, namex cwd path np s = .ok (res, u) := by
  obtain ⟨ip, v, hstart, hunlocked⟩ := namexStart_returns path hroom hcwd
  obtain ⟨r, hr⟩ := namexLoop_returns np hw hroom (namexStart_resolves hw hcwd hstart) hunlocked
    (fun _ => mem_segments hpath) halloc
  refine ⟨r.1, r.2, ?_⟩
  unfold namex
  rw [bind_of_ok hstart, elems_eq_segments (le_refl _)]
  exact hr

end Namex

section Spec

variable {sb : Superblock} {s t : Kernel} {cwd : Slot} {path : List UInt8}

theorem Returned.none_iff {r : Option Slot} {i : Option Nat} (h : Returned sb s t r i) :
    r = none ↔ i = none := by
  cases r with
  | none =>
      cases i with
      | none => exact iff_of_true rfl rfl
      | some i => exact h.elim
  | some ip =>
      cases i with
      | none => exact h.elim
      | some i => exact iff_of_false (Option.some_ne_none _) (Option.some_ne_none _)

theorem resolveParent_eq_none {disk : Nat → Sector} {d : Nat} {names : List (List UInt8)} :
    resolveParent disk d names = none ↔ names = [] ∨
      ∀ e, resolve disk d names.dropLast = some e → (dnode disk e).type ≠ tDir := by
  unfold resolveParent
  cases names with
  | nil => simp
  | cons name names =>
      rw [List.getLast?_eq_some_getLast (List.cons_ne_nil _ _)]
      cases hres : resolve disk d (name :: names).dropLast with
      | none => simp
      | some e => simp

/-- The names that the loop of `skipelem` produces are the segments of the path, and `namei` and
`nameiparent` resolve them. -/
theorem namei_resolves (hw : Walkable sb s) (hcwd : 0 < (s.icache cwd).ref) (hpath : 0 ∉ path) :
    (∀ name names, Produces path 0 name names ↔ names = segments path) ∧
    (∀ r t, namei cwd path s = .ok (r, t) →
      Returned sb s t r (resolve s.bufs.disk (startOf s cwd path) (segments path)) ∧
      (r = none ↔ Stuck s.bufs.disk (startOf s cwd path) (segments path))) ∧
    (∀ r t, nameiparent cwd path s = .ok (r, t) →
      Returned sb s t (r.map Prod.fst)
        ((resolveParent s.bufs.disk (startOf s cwd path) (segments path)).map Prod.fst) ∧
      r.map Prod.snd =
        (resolveParent s.bufs.disk (startOf s cwd path) (segments path)).map Prod.snd ∧
      (r = none ↔ segments path = [] ∨
        ∀ e, resolve s.bufs.disk (startOf s cwd path) (segments path).dropLast = some e →
          (dnode s.bufs.disk e).type ≠ tDir)) ∧
    (Roomy s → Allocated s.bufs.disk (startOf s cwd path) (segments path) →
      (∃ r t, namei cwd path s = .ok (r, t)) ∧ ∃ r t, nameiparent cwd path s = .ok (r, t)) := by
  refine ⟨fun name names => produces_iff hpath, fun r t hrun => ?_, fun r t hrun => ?_,
    fun hroom halloc => ⟨?_, ?_⟩⟩
  · unfold namei at hrun
    obtain ⟨res, u, hnamex, hpure⟩ := bind_eq_ok hrun
    cases hpure
    obtain ⟨hret, _⟩ := namex_resolves hw hcwd hpath hnamex
    simp only [targetOf, Bool.false_eq_true, if_false, Option.map_map, Function.comp_def,
      Option.map_id'] at hret
    exact ⟨hret, hret.none_iff.trans resolve_eq_none⟩
  · obtain ⟨hret, hname⟩ := namex_resolves hw hcwd hpath hrun
    simp only [targetOf, if_true, parentOf_eq] at hret hname
    refine ⟨hret, hname, ?_⟩
    rw [← resolveParent_eq_none]
    have hnone := hret.none_iff
    rwa [Option.map_eq_none_iff, Option.map_eq_none_iff] at hnone
  · obtain ⟨res, u, hnamex⟩ := namex_returns false hw hcwd hpath hroom halloc
    unfold namei
    rw [bind_of_ok hnamex]
    exact ⟨_, _, rfl⟩
  · exact namex_returns true hw hcwd hpath hroom halloc

end Spec

/-! ## The empty root directory -/

theorem atRoot_walkable : Walkable ⟨8192, 8⟩ atRoot.kernel := by
  have hlinks : ∀ i : Fin 8, (dnode rootDisk i).type ≠ 0 → (dnode rootDisk i).nlink ≠ 0 := by
    decide +kernel
  refine ⟨atRoot_ready.accounted, by decide, by decide, rootDisk_dirs.table, fun d name i hd hdir hi => ?_,
    fun i hi htype => .inl (hlinks ⟨i, hi⟩ htype)⟩
  exact (rootDisk_dirs.linked hd hdir hi).1

theorem atRoot_roomy : Roomy atRoot.kernel := ⟨by decide, 1, 2, by decide⟩

/-- In an empty root directory `"/a/"` leads nowhere, but has a parent. -/
theorem namei_resolves_absent :
    (∃ t, namei atRoot.cwd [slash, 97, slash] atRoot.kernel = .ok (none, t)) ∧
      ∃ ip t, nameiparent atRoot.cwd [slash, 97, slash] atRoot.kernel = .ok (some (ip, [97]), t) ∧
        (t.icache ip).node.inum = rootino := by
  have hdir : (dnode atRoot.kernel.bufs.disk rootino).type = tDir := congrArg Dinode.type rootDisk_node
  have hno : numberOf atRoot.kernel.bufs.disk (dnode atRoot.kernel.bufs.disk rootino) [97] = none :=
    numberOf_eq_none.mpr fun k _ hnamed => hnamed.1 (inum_rootDisk k)
  have hsegments : segments [slash, 97, slash] = [[97]] := by decide
  have hstart : startOf atRoot.kernel atRoot.cwd [slash, 97, slash] = rootino := by decide
  obtain ⟨_, hnamei, hparent, hreturns⟩ := namei_resolves atRoot_walkable
    (show 0 < (atRoot.kernel.icache atRoot.cwd).ref by decide) (show 0 ∉ [slash, 97, slash] by decide)
  rw [hsegments, hstart] at hnamei hparent hreturns
  obtain ⟨⟨r, t, hrun⟩, q, u, hrun'⟩ := hreturns atRoot_roomy (by
    intro before name after e hsplit hres
    cases before with
    | nil =>
        cases hres
        rw [hdir]
        decide
    | cons y before => simp at hsplit)
  constructor
  · refine ⟨t, ?_⟩
    have hnone : r = none := (hnamei r t hrun).2.mpr ⟨[], [97], [], rootino, rfl, rfl, .inr hno⟩
    rw [← hnone]
    exact hrun
  · have hp : resolveParent atRoot.kernel.bufs.disk rootino [[97]] = some (rootino, [97]) := by
      simp [resolveParent, resolve, hdir]
    obtain ⟨hret, hname, _⟩ := hparent q u hrun'
    rw [hp] at hret hname
    cases q with
    | none => exact hret.elim
    | some q =>
        obtain ⟨ip, last⟩ := q
        obtain rfl : last = [97] := Option.some.inj hname
        exact ⟨ip, u, hrun', hret.number (ip, rootino) List.mem_cons_self⟩

end Xv6
end LfsXv6
