import LfsXv6.Linux.FileTree

/-!
# TreeStep — what one request can do to the abstract file system

`exec` changes the file system in few ways: a file gets a block, a directory gets an entry and perhaps
a new inode appears, entries of one name disappear from a first block, an inode disappears.  Every
invariant of the file system is proved from the case analyses below.
-/

namespace LfsXv6
namespace Linux

open Lib

/-! ## The lowest free inode number -/

theorem inRange_ofNat {i : Nat} (h : i < 4096) : InRange (Int32.ofNat i) := by
  have hi : (Int32.ofNat i).toInt = i := Int32.toInt_ofNat_of_lt (by omega)
  have hlit : (4096 : Int32).toInt = 4096 := by decide
  have hzero : (0 : Int32).toInt = 0 := by decide
  refine ⟨Int32.le_iff_toInt_le.mpr ?_, Int32.lt_iff_toInt_lt.mpr ?_⟩
  · rw [hi, hzero]
    omega
  · rw [hi, hlit]
    omega

theorem Fs.freeInum_spec {fs : Fs} (h : fs.freeInum ≠ -1) :
    InRange fs.freeInum ∧ fs fs.freeInum = none := by
  have hcases : fs.freeInum = -1 ∨ ∃ q, q < maxInodes ∧ fs (Int32.ofNat q) = none ∧
      fs.freeInum = Int32.ofNat q := by
    unfold Fs.freeInum
    cases hfind : (List.range maxInodes).find? fun q => (fs (Int32.ofNat q)).isNone with
    | none => exact Or.inl rfl
    | some q =>
        have hmem := List.mem_of_find?_eq_some hfind
        have hfree := List.find?_some hfind
        exact Or.inr ⟨q, List.mem_range.mp hmem, Option.isNone_iff_eq_none.mp hfree, rfl⟩
  rcases hcases with hfull | ⟨q, hq, hfree, heq⟩
  · exact absurd hfull h
  · rw [heq]
    exact ⟨inRange_ofNat hq, hfree⟩

/-! ## Creation -/

/-- A type that `creat_server` does not know. -/
def UnknownType (type : Int32) : Prop := type ≠ mfsDirectory ∧ type ≠ mfsRegularFile

instance (type : Int32) : Decidable (UnknownType type) := inferInstanceAs (Decidable (_ ∧ _))

/-- A creation in directory `p`, which holds `slots`, that gets as far as storing the entry: the
directory then holds `slots'`. -/
structure Fs.Enters (fs : Fs) (p : Int32) (name : Name) (slots slots' : List DirSlot) : Prop where
  parent : fs p = some (.dir slots)
  miss : lookupSlots slots name = -1
  free : fs.freeInum ≠ -1
  add : addEntry slots name fs.freeInum = some slots'

section Creat

variable {fs : Fs} {p type : Int32} {name : Name} {slots slots' : List DirSlot}

theorem Fs.Enters.creat_eq (h : fs.Enters p name slots slots') :
    fs.creat p type name =
      if UnknownType type then (-1, Function.update fs p (some (.dir slots')))
      else (0, Function.update (Function.update fs p (some (.dir slots'))) fs.freeInum
        (some (Fs.newNode type fs.freeInum p))) := by
  simp only [Fs.creat, h.parent, h.miss, h.free, h.add, ne_eq, not_true_eq_false, if_false]
  rfl

/-- The new number is free, so it is not the parent's. -/
theorem Fs.Enters.inum_ne (h : fs.Enters p name slots slots') : fs.freeInum ≠ p := by
  intro hc
  have hfree := (Fs.freeInum_spec h.free).2
  rw [hc, h.parent] at hfree
  exact absurd hfree (by simp)

/-- A creation stores an entry or does nothing. -/
theorem Fs.creat_cases (fs : Fs) (p type : Int32) (name : Name) :
    (∃ slots slots', fs.Enters p name slots slots') ∨
      ((¬ ∃ slots slots', fs.Enters p name slots slots') ∧ (fs.creat p type name).2 = fs) := by
  by_cases hent : ∃ slots slots', fs.Enters p name slots slots'
  · exact Or.inl hent
  refine Or.inr ⟨hent, ?_⟩
  cases hp : fs p with
  | none => simp only [Fs.creat, hp]
  | some nd =>
      cases nd with
      | file size blocks => simp only [Fs.creat, hp]
      | dir slots =>
          by_cases hmiss : lookupSlots slots name = -1
          swap
          · simp only [Fs.creat, hp, ne_eq, hmiss, not_false_eq_true, if_true]
          by_cases hfree : fs.freeInum = -1
          · simp only [Fs.creat, hp, hmiss, hfree, ne_eq, not_true_eq_false, if_true, if_false]
          cases hadd : addEntry slots name fs.freeInum with
          | none => simp only [Fs.creat, hp, hmiss, hfree, hadd, ne_eq, not_true_eq_false, if_false]
          | some slots' => exact absurd ⟨slots, slots', hp, hmiss, hfree, hadd⟩ hent

end Creat

/-! ## Removal -/

/-- A removal from directory `p`, which holds `slots`, that finds the inode `i` and is not refused. -/
structure Fs.Removes (fs : Fs) (p : Int32) (name : Name) (slots : List DirSlot) (i : Int32) : Prop where
  parent : fs p = some (.dir slots)
  hit : SlotTable.lookup marker slots name.bytes = some i
  accepted : inFirst slots name = true → Fs.refuses (fs.child slots i) = false

section Unlink

variable {fs : Fs} {p : Int32} {name : Name} {slots : List DirSlot} {i : Int32}

/-- The parent after a removal: entries are cleared in the first block only. -/
def clearIn (slots : List DirSlot) (name : Name) : List DirSlot :=
  if inFirst slots name then clearFirst slots name else slots

theorem Fs.Removes.unlink_eq (h : fs.Removes p name slots i) :
    fs.unlink p name =
      (0, Function.update (Function.update fs p (some (.dir (clearIn slots name)))) i none) := by
  cases hin : inFirst slots name with
  | true =>
      simp only [Fs.unlink, h.parent, h.hit, hin, h.accepted hin, clearIn, if_true,
        Bool.false_eq_true, if_false]
  | false =>
      simp only [Fs.unlink, h.parent, h.hit, hin, clearIn, Bool.false_eq_true, if_false]
      rw [← h.parent, Function.update_eq_self]

/-- A removal takes an inode away or does nothing. -/
theorem Fs.unlink_cases (fs : Fs) (p : Int32) (name : Name) :
    (∃ slots i, fs.Removes p name slots i) ∨
      ((¬ ∃ slots i, fs.Removes p name slots i) ∧ (fs.unlink p name).2 = fs) := by
  by_cases hrem : ∃ slots i, fs.Removes p name slots i
  · exact Or.inl hrem
  refine Or.inr ⟨hrem, ?_⟩
  cases hp : fs p with
  | none => simp only [Fs.unlink, hp]
  | some nd =>
      cases nd with
      | file size blocks => simp only [Fs.unlink, hp]
      | dir slots =>
          cases hhit : SlotTable.lookup marker slots name.bytes with
          | none => simp only [Fs.unlink, hp, hhit]
          | some i =>
              by_cases hacc : inFirst slots name = true ∧ Fs.refuses (fs.child slots i) = true
              · simp only [Fs.unlink, hp, hhit, hacc.1, hacc.2, if_true]
              · refine absurd ⟨slots, i, hp, hhit, fun hin => ?_⟩ hrem
                exact Bool.eq_false_iff.mpr fun hc => hacc ⟨hin, hc⟩

end Unlink

/-! ## All requests -/

/-- What a request can make of a file system. -/
inductive Fs.Change (fs : Fs) : Request → Fs → Prop where
  | same (r : Request) : Change fs r fs
  | write {i block : Int32} {buffer : Block} {size size' : Int32}
      {blocks blocks' : Fin 14 → Option Block} :
      fs i = some (.file size blocks) →
      Change fs (.write i buffer block) (Function.update fs i (some (.file size' blocks')))
  | store {p type : Int32} {name : Name} {slots slots' : List DirSlot} :
      UnknownType type → fs.Enters p name slots slots' →
      Change fs (.creat p type name) (Function.update fs p (some (.dir slots')))
  | create {p type : Int32} {name : Name} {slots slots' : List DirSlot} :
      ¬ UnknownType type → fs.Enters p name slots slots' →
      Change fs (.creat p type name)
        (Function.update (Function.update fs p (some (.dir slots'))) fs.freeInum
          (some (Fs.newNode type fs.freeInum p)))
  | remove {p : Int32} {name : Name} {slots : List DirSlot} {i : Int32} :
      fs.Removes p name slots i →
      Change fs (.unlink p name)
        (Function.update (Function.update fs p (some (.dir (clearIn slots name)))) i none)

theorem Fs.exec_change (fs : Fs) (r : Request) : fs.Change r (fs.exec r).2 := by
  cases r with
  | lookup p name => exact Fs.Change.same _
  | stat i => exact Fs.Change.same _
  | read i block => exact Fs.Change.same _
  | write i buffer block =>
      rw [Fs.exec, Fs.write]
      split
      · rename_i size blocks k hi _
        exact Fs.Change.write hi
      · exact Fs.Change.same _
  | creat p type name =>
      rcases Fs.creat_cases fs p type name with ⟨slots, slots', hent⟩ | ⟨_, heq⟩
      · rw [Fs.exec, hent.creat_eq]
        split
        · rename_i hunknown
          exact Fs.Change.store hunknown hent
        · rename_i hknown
          exact Fs.Change.create hknown hent
      · rw [Fs.exec, heq]
        exact Fs.Change.same _
  | unlink p name =>
      rcases Fs.unlink_cases fs p name with ⟨slots, i, hrem⟩ | ⟨_, heq⟩
      · rw [Fs.exec, hrem.unlink_eq]
        exact Fs.Change.remove hrem
      · rw [Fs.exec, heq]
        exact Fs.Change.same _

end Linux
end LfsXv6
