import LfsXv6.Lib.Cursors
import LfsXv6.Xv6.Sysfile
import LfsXv6.Xv6.Files

/-!
# OpenFiles — reading and writing at the offset of an open file

Processes that have a `struct file` in common, after `fork` or `dup`, share its offset; one that opens the file
again has an offset of its own.  `fileread` and `filewrite` move the offset while the inode is locked, so calls
on one inode come one after the other, in some order; the results here are about every order.
-/

namespace LfsXv6
namespace Xv6

open Lib Prog

/-! ## `fileread` and `filewrite` -/

/-- The offset moves by what was read or written. -/
def FileEntry.advance (r : Int32) (file : FileEntry) : FileEntry :=
  if 0 < r then { file with off := file.off + r.toUInt32 } else file

/-- The behaviour of `fileread` and `filewrite` on a file that is not a pipe, with `readi` or `writei` as `x`. -/
def transferAt {α : Type} (name : String) (ok : FileEntry → Bool) (bad : α) (count : α → Int32) (f : Fin nfile)
    (x : UInt32 → Inode → Prog Bufs (α × Inode)) : Prog System α := do
  let file ← look fun s => s.ftable f
  if ok file = false then return bad
  else
    match file.type with
    | .inode ip => do
        onKernel (ilock ip)
        let off ← look fun s => (s.ftable f).off
        let r ← onKernel (withNode ip (x off))
        setFile f (FileEntry.advance (count r))
        onKernel (iunlock ip)
        return r
    | _ => halt name

/-- `fileread` -/
def fileread (dev : Devsw) (f : Fin nfile) (n : Int32) : Prog System (Int32 × List UInt8) :=
  transferAt "fileread" FileEntry.readable (-1, []) Prod.fst f fun off node => readi dev node off n.toUInt32

/-- `filewrite` -/
def filewrite (dev : Devsw) (f : Fin nfile) (src : List UInt8) (n : Int32) : Prog System Int32 :=
  transferAt "filewrite" FileEntry.writable (-1) id f fun off node => writei dev node src off n.toUInt32

/-- What is done with the open files of an inode, and next to it. -/
inductive OpenCall where
  | read (f : Fin nfile) (n : Int32)
  | write (f : Fin nfile) (src : List UInt8) (n : Int32)
  /-- `sys_open` has a `struct file` for `i`. -/
  | opened (f : Fin nfile) (i : Slot) (readable writable : Bool)
  | other (c : FsCall)

/-- Execute a call. -/
def OpenCall.run (dev : Devsw) : OpenCall → Prog System (Int32 × List UInt8)
  | .read f n => fileread dev f n
  | .write f src n => do
      let r ← filewrite dev f src n
      return (r, [])
  | .opened f i readable writable => do
      setFile f fun file => { file with type := .inode i, off := 0, readable := readable, writable := writable }
      return (0, [])
  | .other c => do
      onKernel (c.run dev)
      return (0, [])

/-- The calls on the inode of slot `ip`: `src` is what is in memory, and there are free blocks for it. -/
def OpenCall.Admits (sb : Superblock) (ip : Slot) (s : System) : OpenCall → Prop
  | .read f _ => (s.ftable f).type = .inode ip
  | .write f src n => (s.ftable f).type = .inode ip ∧ src.length = n.toUInt32.toNat ∧
      Room sb s.kernel.bufs.disk (s.kernel.file ip)
  | .opened _ _ _ _ => True
  | .other c => (FileCall.other c).Allowed sb ip s.kernel

/-! ## An array with cursors -/

/-- The bytes of a file, and what the open files say. -/
structure OpenArray where
  cursors : Cursors (Fin nfile) UInt8
  readable : Fin nfile → Bool
  writable : Fin nfile → Bool

namespace OpenArray

/-- The call is turned down. -/
def Refuses (x : OpenArray) (ok : Fin nfile → Bool) (f : Fin nfile) (n : Int32) : Prop :=
  ok f = false ∨ 2 ^ 32 ≤ x.cursors.pos f + n.toUInt32.toNat

instance (x : OpenArray) (ok : Fin nfile → Bool) (f : Fin nfile) (n : Int32) : Decidable (x.Refuses ok f n) :=
  inferInstanceAs (Decidable (_ ∨ _))

/-- The bytes that a call reads. -/
def behind (x : OpenArray) (f : Fin nfile) (n : Int32) : List UInt8 :=
  (x.cursors.data.drop (x.cursors.pos f)).take n.toUInt32.toNat

/-- The bytes for which the file has room. -/
def fitting (x : OpenArray) (f : Fin nfile) (src : List UInt8) : List UInt8 :=
  src.take (maxfile * bsize - x.cursors.pos f)

/-- A call on the array: what it returns, and the new array. -/
def turn (x : OpenArray) : OpenCall → (Int × List UInt8) × OpenArray
  | .read f n =>
      if x.Refuses x.readable f n then ((-1, []), x)
      else (((x.behind f n).length, x.behind f n), { x with cursors := x.cursors.step (.read f (x.behind f n)) })
  | .write f src n =>
      if x.Refuses x.writable f n then ((-1, []), x)
      else (((x.fitting f src).length, []), { x with cursors := x.cursors.step (.write f (x.fitting f src)) })
  | .opened f _ readable writable =>
      ((0, []), ⟨x.cursors.step (.rewind f), Function.update x.readable f readable,
        Function.update x.writable f writable⟩)
  | .other _ => ((0, []), x)

/-- A sequence of calls on the array. -/
def turns (x : OpenArray) : List OpenCall → List (Int × List UInt8) × OpenArray
  | [] => ([], x)
  | c :: cs => ((x.turn c).1 :: ((x.turn c).2.turns cs).1, ((x.turn c).2.turns cs).2)

end OpenArray

/-- What a call transfers when it returns `o`. -/
def OpenCall.transfers (o : Int32 × List UInt8) : OpenCall → List (Transfer (Fin nfile) UInt8)
  | .read f _ => [.read f o.2]
  | .write f src _ => [.write f (src.take o.1.toInt.toNat)]
  | .opened f _ _ _ => [.rewind f]
  | .other _ => []

/-- What a sequence of calls transfers. -/
def transfers (cs : List OpenCall) (os : List (Int32 × List UInt8)) : List (Transfer (Fin nfile) UInt8) :=
  (cs.zip os).flatMap fun x => x.1.transfers x.2

/-- Only `w` is written to, and it is not opened again. -/
def OpenCall.LogsTo (w : Fin nfile) : OpenCall → Prop
  | .read _ _ | .other _ => True
  | .write f _ _ => f = w
  | .opened f _ _ _ => f ≠ w

/-! ## One call -/

namespace FileEntry

variable (r : Int32) (file : FileEntry)

@[simp] theorem advance_type : (file.advance r).type = file.type := by
  unfold advance
  split <;> rfl

@[simp] theorem advance_readable : (file.advance r).readable = file.readable := by
  unfold advance
  split <;> rfl

@[simp] theorem advance_writable : (file.advance r).writable = file.writable := by
  unfold advance
  split <;> rfl

/-- A failure does not move the offset. -/
theorem advance_neg_one : file.advance (-1) = file := if_neg (by decide)

variable {r file}

theorem advance_off {k : Nat} (hr : r.toInt = k) (hfits : file.off.toNat + k < 2 ^ 32) :
    (file.advance r).off.toNat = file.off.toNat + k := by
  have hcount : r.toUInt32.toNat = k := by
    have hcast : r.toUInt32.toNat = r.toBitVec.toNat := rfl
    have hval := BitVec.toInt_eq_toNat_cond r.toBitVec
    have hint : r.toBitVec.toInt = k := hr
    rw [hcast]
    split at hval <;> omega
  unfold advance
  split
  · rw [UInt32.toNat_add, hcount, Nat.mod_eq_of_lt hfits]
  · rename_i hle
    have hzero : r.toInt ≤ 0 := by
      have := Int32.not_lt.mp hle
      exact Int32.le_iff_toInt_le.mp this
    omega

end FileEntry

section Transfer

variable {α : Type} {name : String} {ok : FileEntry → Bool} {bad a : α} {count : α → Int32} {f : Fin nfile}
  {x : UInt32 → Inode → Prog Bufs (α × Inode)} {s : System} {ip : Slot} {k : Kernel}

theorem onKernel_ok {y : Prog Kernel α} (h : y s.kernel = .ok (a, k)) :
    onKernel y s = .ok (a, { s with kernel := k }) := by
  unfold onKernel
  rw [h]

theorem transferAt_refused (hok : ok (s.ftable f) = false) : transferAt name ok bad count f x s = .ok (bad, s) := by
  unfold transferAt
  rw [bind_of_ok (rfl : look _ s = .ok (s.ftable f, s)), if_pos hok]
  rfl

/-- The call does to the inode what happens under its lock, and moves the offset. -/
theorem transferAt_ok (hok : ok (s.ftable f) = true) (htype : (s.ftable f).type = .inode ip)
    (hrun : locked ip (x (s.ftable f).off) s.kernel = .ok (a, k)) : transferAt name ok bad count f x s = .ok (a,
      { s with kernel := k, ftable := Function.update s.ftable f ((s.ftable f).advance (count a)) }) := by
  unfold locked at hrun
  obtain ⟨_, k₁, hlock, hrun⟩ := bind_eq_ok hrun
  obtain ⟨b, k₂, hnode, hrun⟩ := bind_eq_ok hrun
  obtain ⟨_, k₃, hunlock, hrun⟩ := bind_eq_ok hrun
  cases hrun
  unfold transferAt
  rw [bind_of_ok (rfl : look _ s = .ok (s.ftable f, s)), if_neg (by rw [hok]; decide), htype]
  dsimp only
  rw [bind_of_ok (onKernel_ok hlock), bind_of_ok (t := { s with kernel := k₁ }) (a := (s.ftable f).off) rfl,
    bind_of_ok (onKernel_ok hnode), bind_of_ok (a := ()) (t := { s with
      kernel := k₂, ftable := Function.update s.ftable f ((s.ftable f).advance (count a)) }) rfl,
    bind_of_ok (onKernel_ok hunlock)]
  rfl

end Transfer

section Arrays

variable {data src : List UInt8} {off n : UInt32}

theorem refused_within (h : off.toNat ≤ data.length) : Refused data off n ↔ 2 ^ 32 ≤ off.toNat + n.toNat :=
  or_iff_right (Nat.not_lt.mpr h)

/-- A write inside the array, or at its end. -/
theorem arrayWrite_within (h : off.toNat ≤ data.length) (hlen : src.length = n.toNat)
    (hfits : ¬ 2 ^ 32 ≤ off.toNat + n.toNat) : arrayWrite data src off n =
      (((src.take (maxfile * bsize - off.toNat)).length : Int),
        splice data off.toNat (src.take (maxfile * bsize - off.toNat))) := by
  have htake : src.take (min n.toNat (maxfile * bsize - off.toNat)) = src.take (maxfile * bsize - off.toNat) := by
    rw [← hlen, List.take_eq_take_iff]
    omega
  rw [arrayWrite, if_neg (mt (refused_within h).mp hfits), htake, List.length_take, hlen, Nat.min_comm]
  rfl

theorem arrayRead_within (h : off.toNat ≤ data.length) (hfits : ¬ 2 ^ 32 ≤ off.toNat + n.toNat) :
    arrayRead data off n =
      ((((data.drop off.toNat).take n.toNat).length : Int), (data.drop off.toNat).take n.toNat) := by
  rw [arrayRead, if_neg (mt (refused_within h).mp hfits), List.length_take, List.length_drop]

end Arrays

/-- The kernel holds the bytes of the array in slot `ip`, and the open files stand where the cursors do. -/
structure Shares (sb : Superblock) (ip : Slot) (x : OpenArray) (s : System) : Prop where
  backs : Backs sb ip x.cursors.data s.kernel
  within : x.cursors.Within
  file : ∀ f, (s.ftable f).type = .inode ip → (s.ftable f).off.toNat = x.cursors.pos f ∧
    (s.ftable f).readable = x.readable f ∧ (s.ftable f).writable = x.writable f

namespace Shares

variable {sb : Superblock} {ip : Slot} {x : OpenArray} {s t : System} {f : Fin nfile} {n : Int32} {src : List UInt8}
  {c : OpenCall} {dev : Devsw} {k : Kernel} {o : Int32 × List UInt8} {r : Int32}

/-- An array has at most `MAXFILE` blocks. -/
theorem length_le (h : Shares sb ip x s) : x.cursors.data.length ≤ maxfile * bsize := by
  rw [h.backs.length_eq]
  exact h.backs.bound

/-- The kernel changes, and one open file moves on. -/
theorem moved (h : Shares sb ip x s) (htype : (s.ftable f).type = .inode ip) {data : List UInt8} {m : Nat}
    (hbacks : Backs sb ip data k) (hr : r.toInt = m)
    (hwithin : ({ x.cursors.move f (x.cursors.pos f + m) with data := data } : Cursors (Fin nfile) UInt8).Within) :
    Shares sb ip { x with cursors := { x.cursors.move f (x.cursors.pos f + m) with data := data } }
      { s with kernel := k, ftable := Function.update s.ftable f ((s.ftable f).advance r) } := by
  refine ⟨hbacks, hwithin, fun g hg => ?_⟩
  obtain ⟨hoff, hreadable, hwritable⟩ := h.file f htype
  by_cases hgf : g = f
  · subst hgf
    dsimp only at hg ⊢
    rw [Function.update_self] at hg ⊢
    have hend : x.cursors.pos g + m ≤ data.length := by
      have := hwithin g
      simpa [Cursors.move] using this
    have hbound : data.length ≤ maxfile * bsize := by
      rw [hbacks.length_eq]
      exact hbacks.bound
    refine ⟨?_, ?_, ?_⟩
    · rw [FileEntry.advance_off hr (by simp only [maxfile, bsize] at hbound; omega), hoff]
      exact (Function.update_self g _ x.cursors.pos).symm
    · rw [FileEntry.advance_readable, hreadable]
    · rw [FileEntry.advance_writable, hwritable]
  · dsimp only at hg ⊢
    rw [Function.update_of_ne hgf] at hg ⊢
    obtain ⟨hoff', hrest⟩ := h.file g hg
    exact ⟨by rw [hoff']; exact (Function.update_of_ne hgf ..).symm, hrest⟩

/-- The kernel changes, and no file moves. -/
theorem stayed (h : Shares sb ip x s) (hbacks : Backs sb ip x.cursors.data k) :
    Shares sb ip x { s with kernel := k } := ⟨hbacks, h.within, h.file⟩


theorem refuses_iff (hoff : (s.ftable f).off.toNat = x.cursors.pos f) (n : Int32) {ok : Fin nfile → Bool}
    (hok : ok f = true) : x.Refuses ok f n ↔ 2 ^ 32 ≤ (s.ftable f).off.toNat + n.toUInt32.toNat := by
  rw [OpenArray.Refuses, hoff]
  exact or_iff_right (by rw [hok]; decide)

/-- A call that the inode turns down. -/
theorem refused (h : Shares sb ip x s) (hbacks : Backs sb ip x.cursors.data k) : Shares sb ip x { s with
    kernel := k, ftable := Function.update s.ftable f ((s.ftable f).advance (-1)) } := by
  rw [FileEntry.advance_neg_one, Function.update_eq_self]
  exact ⟨hbacks, h.within, h.file⟩

/-- `fileread` does what a read of the array does. -/
theorem read (h : Shares sb ip x s) (dev : Devsw) (n : Int32) (htype : (s.ftable f).type = .inode ip) :
    ∃ o t, (OpenCall.read f n).run dev s = .ok (o, t) ∧ (o.1.toInt, o.2) = (x.turn (.read f n)).1 ∧
      Shares sb ip (x.turn (.read f n)).2 t := by
  obtain ⟨hoff, hreadable, -⟩ := h.file f htype
  by_cases hok : (s.ftable f).readable = true
  · obtain ⟨r, out, k, hrun, hret, hbacks⟩ := h.backs.read dev (s.ftable f).off n.toUInt32
    have hcall : (OpenCall.read f n).run dev s = .ok ((r, out), _) := transferAt_ok hok htype hrun
    have hiff := refuses_iff hoff n (hreadable.symm.trans hok)
    refine ⟨_, _, hcall, ?_⟩
    rw [OpenArray.turn]
    by_cases href : x.Refuses x.readable f n
    · rw [if_pos href]
      rw [arrayRead, if_pos (.inr (hiff.mp href))] at hret
      obtain ⟨hr, rfl⟩ := Prod.mk.inj hret
      obtain rfl : r = -1 := Int32.toInt_inj.mp hr
      exact ⟨rfl, h.refused hbacks⟩
    · rw [if_neg href]
      rw [arrayRead_within (by rw [hoff]; exact h.within f) (mt hiff.mpr href), hoff] at hret
      obtain ⟨hr, rfl⟩ := Prod.mk.inj hret
      refine ⟨hret, h.moved htype hbacks hr ?_⟩
      exact h.within.step (a := .read f (x.behind f n)) (List.take_prefix _ _)
  · have hno : (s.ftable f).readable = false := by simpa using hok
    refine ⟨_, s, transferAt_refused hno, ?_⟩
    rw [OpenArray.turn, if_pos (.inl (by rw [← hreadable, hno]))]
    exact ⟨rfl, h⟩

/-- `filewrite` does what a write to the array does. -/
theorem write (h : Shares sb ip x s) (dev : Devsw) (hc : (OpenCall.write f src n).Admits sb ip s) :
    ∃ o t, (OpenCall.write f src n).run dev s = .ok (o, t) ∧ (o.1.toInt, o.2) = (x.turn (.write f src n)).1 ∧
      Shares sb ip (x.turn (.write f src n)).2 t := by
  obtain ⟨htype, hlen, hroom⟩ := hc
  obtain ⟨hoff, -, hwritable⟩ := h.file f htype
  by_cases hok : (s.ftable f).writable = true
  · obtain ⟨r, k, hrun, hret, hbacks⟩ := h.backs.write dev (s.ftable f).off hlen hroom
    obtain ⟨r', k', hlocked, hpure⟩ := bind_eq_ok hrun
    cases hpure
    have hwrite : filewrite dev f src n s = .ok (r, _) := transferAt_ok hok htype hlocked
    have hcall : (OpenCall.write f src n).run dev s = .ok ((r, []), _) := bind_of_ok hwrite
    have hiff := refuses_iff hoff n (hwritable.symm.trans hok)
    refine ⟨_, _, hcall, ?_⟩
    rw [OpenArray.turn]
    by_cases href : x.Refuses x.writable f n
    · rw [if_pos href]
      rw [arrayWrite, if_pos (.inr (hiff.mp href))] at hret hbacks
      obtain rfl : r = -1 := Int32.toInt_inj.mp hret
      exact ⟨rfl, h.refused hbacks⟩
    · rw [if_neg href]
      rw [arrayWrite_within (by rw [hoff]; exact h.within f) hlen (mt hiff.mpr href), hoff] at hret hbacks
      refine ⟨by rw [hret]; rfl, h.moved htype hbacks hret ?_⟩
      exact h.within.step (a := .write f (x.fitting f src)) trivial
  · have hno : (s.ftable f).writable = false := by simpa using hok
    have hwrite : filewrite dev f src n s = .ok (-1, s) := transferAt_refused hno
    refine ⟨_, s, bind_of_ok hwrite, ?_⟩
    rw [OpenArray.turn, if_pos (.inl (by rw [← hwritable, hno]))]
    exact ⟨rfl, h⟩

/-- **Step lemma.** -/
theorem step (h : Shares sb ip x s) (hc : c.Admits sb ip s) (hrun : c.run dev s = .ok (o, t)) :
    (o.1.toInt, o.2) = (x.turn c).1 ∧ Shares sb ip (x.turn c).2 t := by
  cases c with
  | read f n =>
      obtain ⟨o', t', hrun', hturn⟩ := h.read dev n hc
      rw [hrun] at hrun'
      cases hrun'
      exact hturn
  | write f src n =>
      obtain ⟨o', t', hrun', hturn⟩ := h.write dev hc
      rw [hrun] at hrun'
      cases hrun'
      exact hturn
  | opened f i readable writable =>
      cases hrun
      refine ⟨rfl, h.backs, h.within.step (a := .rewind f) trivial, fun g hg => ?_⟩
      by_cases hgf : g = f
      · subst hgf
        exact ⟨by simp [OpenArray.turn, Cursors.step, Cursors.move], by simp [OpenArray.turn], by simp [OpenArray.turn]⟩
      · dsimp only at hg ⊢
        rw [Function.update_of_ne hgf] at hg ⊢
        obtain ⟨hoff, hreadable, hwritable⟩ := h.file g hg
        exact ⟨by rw [hoff]; exact (Function.update_of_ne hgf ..).symm,
          by rw [hreadable]; exact (Function.update_of_ne hgf ..).symm,
          by rw [hwritable]; exact (Function.update_of_ne hgf ..).symm⟩
  | other c =>
      obtain ⟨u, s', hother, hpure⟩ := bind_eq_ok hrun
      cases hpure
      obtain ⟨k, hk, rfl⟩ := onKernel_eq_ok hother
      exact ⟨rfl, h.stayed (h.backs.other hc hk)⟩

end Shares

/-! ## Runs -/

/-- What is transferred moves the cursors. -/
theorem OpenArray.turn_transfers {x : OpenArray} {c : OpenCall} {o : Int32 × List UInt8}
    (h : (o.1.toInt, o.2) = (x.turn c).1) :
    Run Cursors.step Cursors.Admits x.cursors (c.transfers o) (x.turn c).2.cursors := by
  obtain ⟨r, out⟩ := o
  have one : ∀ {a : Transfer (Fin nfile) UInt8} {y : Cursors (Fin nfile) UInt8}, x.cursors.Admits a →
      x.cursors.step a = y → Run Cursors.step Cursors.Admits x.cursors [a] y := by
    rintro a y ha rfl
    exact .cons ha (.nil _)
  cases c with
  | read f n =>
      rw [turn] at h ⊢
      split at h
      · rename_i href
        obtain ⟨-, rfl⟩ := Prod.mk.inj h
        rw [if_pos href]
        exact one (List.nil_prefix) (Cursors.step_read_nil _ f)
      · rename_i href
        obtain ⟨-, rfl⟩ := Prod.mk.inj h
        rw [if_neg href]
        exact one (List.take_prefix _ _) rfl
  | write f src n =>
      rw [turn] at h ⊢
      split at h
      · rename_i href
        obtain ⟨hr, -⟩ := Prod.mk.inj h
        dsimp only at hr
        rw [if_pos href, OpenCall.transfers, hr]
        exact one trivial (Cursors.step_write_nil _ f)
      · rename_i href
        obtain ⟨hr, -⟩ := Prod.mk.inj h
        dsimp only at hr
        have htake : src.take (x.fitting f src).length = x.fitting f src := by
          rw [fitting, List.length_take, List.take_eq_take_iff]
          omega
        rw [if_neg href, OpenCall.transfers, hr, Int.toNat_natCast, htake]
        exact one trivial rfl
  | opened f i readable writable => exact one trivial rfl
  | other c => exact .nil _

namespace Shares

variable {sb : Superblock} {ip : Slot} {x : OpenArray} {s t : System} {dev : Devsw} {cs : List OpenCall}
  {os : List (Int32 × List UInt8)}

/-- **Run lemma.** -/
theorem run (hrun : Chain (OpenCall.run dev) (OpenCall.Admits sb ip) s cs os t) (h : Shares sb ip x s) :
    os.map (fun o => (o.1.toInt, o.2)) = (x.turns cs).1 ∧ Shares sb ip (x.turns cs).2 t ∧
      Run Cursors.step Cursors.Admits x.cursors (transfers cs os) (x.turns cs).2.cursors := by
  induction hrun generalizing x with
  | nil s => exact ⟨rfl, h, .nil _⟩
  | cons hok hrun _ ih =>
      obtain ⟨hout, hnext⟩ := h.step hok hrun
      obtain ⟨houts, hend, htransfers⟩ := ih hnext
      refine ⟨?_, hend, (OpenArray.turn_transfers hout).append htransfers⟩
      rw [List.map_cons, hout, houts]
      rfl

end Shares

/-- No byte, all offsets at zero. -/
def OpenArray.start (s : System) : OpenArray :=
  ⟨⟨[], fun _ => 0⟩, fun f => (s.ftable f).readable, fun f => (s.ftable f).writable⟩

section Runs

variable {sb : Superblock} {dev : Devsw} {ip : Slot} {s t : System} {cs : List OpenCall}
  {os : List (Int32 × List UInt8)} {w : Fin nfile}

theorem FreshFile.shares (h : FreshFile sb ip s.kernel)
    (hoff : ∀ f, (s.ftable f).type = .inode ip → (s.ftable f).off = 0) : Shares sb ip (.start s) s where
  backs := h.backs
  within _ := Nat.zero_le _
  file f hf := ⟨by rw [hoff f hf]; rfl, rfl, rfl⟩

/-- **Open files.**  On a file that starts empty, the calls of all processes, in any order, return what reads and
writes of an array of bytes return at the positions of the open files, whatever the counts; the offsets are these
positions and stay inside the file; and a call on the file returns whenever there are enough free blocks. -/
theorem open_files_refine_array (h : FreshFile sb ip s.kernel)
    (hoff : ∀ f, (s.ftable f).type = .inode ip → (s.ftable f).off = 0)
    (hrun : Chain (OpenCall.run dev) (OpenCall.Admits sb ip) s cs os t) :
    os.map (fun o => (o.1.toInt, o.2)) = ((OpenArray.start s).turns cs).1 ∧
      content t.kernel.bufs.disk (t.kernel.file ip).toDinode = ((OpenArray.start s).turns cs).2.cursors.data ∧
      (∀ f, (t.ftable f).type = .inode ip → (t.ftable f).off.toNat = ((OpenArray.start s).turns cs).2.cursors.pos f ∧
        (t.ftable f).off.toNat ≤ (t.kernel.file ip).size.toNat) ∧
      (∀ f n, (OpenCall.read f n).Admits sb ip t → ∃ o u, (OpenCall.read f n).run dev t = .ok (o, u)) ∧
      ∀ f src n, (OpenCall.write f src n).Admits sb ip t → ∃ o u, (OpenCall.write f src n).run dev t = .ok (o, u) := by
  obtain ⟨houts, hend, -⟩ := (h.shares hoff).run hrun
  refine ⟨houts, hend.backs.content, fun f hf => ?_, fun f n hc => ?_, fun f src n hc => ?_⟩
  · obtain ⟨hpos, -⟩ := hend.file f hf
    refine ⟨hpos, ?_⟩
    rw [hpos, ← hend.backs.length_eq]
    exact hend.within f
  · obtain ⟨o, u, hcall, -⟩ := hend.read dev n hc
    exact ⟨o, u, hcall⟩
  · obtain ⟨o, u, hcall, -⟩ := hend.write dev hc
    exact ⟨o, u, hcall⟩

theorem OpenCall.LogsTo.transfers {c : OpenCall} (h : c.LogsTo w) (o : Int32 × List UInt8) :
    ∀ a ∈ c.transfers o, a.Logs w := by
  cases c with
  | other c => exact fun a ha => absurd ha List.not_mem_nil
  | _ =>
      intro a ha
      obtain rfl := List.mem_singleton.mp ha
      exact h

/-- **A shared file is a log.**  Any number of processes write to an empty file through one open file `w`, and read it
through others, which may be opened at any time.  The file holds what the writes say they have written, each in one
piece and in order; and what has been read through an open file since it was opened, by whichever process, is what
the file holds before its offset: no byte is lost, and none is read twice. -/
theorem shared_log (h : FreshFile sb ip s.kernel)
    (hoff : ∀ f, (s.ftable f).type = .inode ip → (s.ftable f).off = 0)
    (hrun : Chain (OpenCall.run dev) (OpenCall.Admits sb ip) s cs os t) (hlog : ∀ c ∈ cs, c.LogsTo w) :
    content t.kernel.bufs.disk (t.kernel.file ip).toDinode = (transfers cs os).flatMap Transfer.written ∧
      ∀ f, (t.ftable f).type = .inode ip → (transfers cs os).foldl (Transfer.passed f) [] =
        (content t.kernel.bufs.disk (t.kernel.file ip).toDinode).take (t.ftable f).off.toNat := by
  obtain ⟨-, hend, htransfers⟩ := (h.shares hoff).run hrun
  have hlogs : ∀ a ∈ transfers cs os, a.Logs w := by
    intro a ha
    obtain ⟨⟨c, o⟩, hmem, ha⟩ := List.mem_flatMap.mp ha
    exact (hlog c (List.of_mem_zip hmem).1).transfers o a ha
  obtain ⟨hdata, hpassed⟩ := Cursors.Logged.run htransfers hlogs ⟨fun _ => Nat.zero_le _, rfl⟩
  refine ⟨hend.backs.content.trans hdata, fun f hf => ?_⟩
  rw [hend.backs.content, (hend.file f hf).1]
  exact hpassed f

end Runs

/-- Every `struct file` is open on the empty file of slot 0. -/
def allOpen : System where
  kernel := blankFile
  ftable _ := { ref := 1, type := .inode 0, readable := true, writable := true, off := 0 }
  ofile _ := none
  cwd := 0

/-- A write, and a read of a process that opens the file after it. -/
def smallCalls : List OpenCall :=
  [.write ⟨0, by decide⟩ [1, 2, 3] 3, .opened ⟨1, by decide⟩ 0 true false, .read ⟨1, by decide⟩ 2]

theorem smallCalls_run : ∃ t os, Chain (OpenCall.run noDevices) (OpenCall.Admits ⟨8192, 8⟩ 0) allOpen smallCalls os t := by
  have hstart : Shares ⟨8192, 8⟩ 0 (.start allOpen) allOpen :=
    FreshFile.shares (s := allOpen) blankFile_fresh fun _ _ => rfl
  have hwrite : (OpenCall.write ⟨0, by decide⟩ [1, 2, 3] 3).Admits ⟨8192, 8⟩ 0 allOpen := ⟨rfl, rfl, blankFile_room⟩
  obtain ⟨o, u, hrun, -, hnext⟩ := hstart.write noDevices hwrite
  have hopened : (OpenCall.opened ⟨1, by decide⟩ 0 true false).run noDevices u = .ok ((0, []), _) := rfl
  obtain ⟨-, hnext⟩ := hnext.step (c := .opened ⟨1, by decide⟩ 0 true false) trivial hopened
  have hread : ((Function.update u.ftable ⟨1, by decide⟩ { u.ftable ⟨1, by decide⟩ with
      type := .inode 0, off := 0, readable := true, writable := false }) ⟨1, by decide⟩).type = .inode 0 := by
    rw [Function.update_self]
  obtain ⟨o', t, hrun', -, -⟩ := hnext.read noDevices 2 hread
  exact ⟨t, _, .cons hwrite hrun (.cons trivial hopened (.cons hread hrun' (.nil t)))⟩

theorem open_files_refine_array_small : ∃ t os,
    Chain (OpenCall.run noDevices) (OpenCall.Admits ⟨8192, 8⟩ 0) allOpen smallCalls os t ∧
      os.map (fun o => (o.1.toInt, o.2)) = [(3, []), (0, []), (2, [1, 2])] := by
  obtain ⟨t, os, hrun⟩ := smallCalls_run
  have houts := (open_files_refine_array (s := allOpen) blankFile_fresh (fun _ _ => rfl) hrun).1
  exact ⟨t, os, hrun, houts.trans (by decide +kernel)⟩

theorem shared_log_small : ∃ t os,
    Chain (OpenCall.run noDevices) (OpenCall.Admits ⟨8192, 8⟩ 0) allOpen smallCalls os t ∧
      content t.kernel.bufs.disk (t.kernel.file 0).toDinode = (transfers smallCalls os).flatMap Transfer.written := by
  obtain ⟨t, os, hrun⟩ := smallCalls_run
  refine ⟨t, os, hrun, (shared_log (s := allOpen) (w := ⟨0, by decide⟩) blankFile_fresh (fun _ _ => rfl) hrun ?_).1⟩
  simp [smallCalls, OpenCall.LogsTo]

end Xv6
end LfsXv6
