import Mathlib
import LfsXv6.Lib.Ring
import LfsXv6.Lib.Run

/-!
# Pipe — concurrent readers and writers of one pipe

A call of `pipewrite` or `piperead` holds `p->lock` from its start to its return, except while it
sleeps.  So a run of the pipe is a sequence of turns, each of them one stretch of a call from its start
or from a sleep to the next sleep or the return.  Calls are numbered; a sleeping call may be resumed at
any time, which covers every order in which `wakeup` and `kill` make processes runnable.
-/

namespace LfsXv6
namespace Xv6

open Lib

def pipesize : UInt32 := 512

/-- `struct pipe`, without its lock. -/
structure Pipe where
  data : Nat → UInt8
  nread : UInt32
  nwrite : UInt32
  readopen : Bool
  writeopen : Bool

namespace Pipe

/-- The pipe that `pipealloc` sets up; the bytes of its page are what they were. -/
def alloc (data : Nat → UInt8) : Pipe :=
  { data := data, nread := 0, nwrite := 0, readopen := true, writeopen := true }

/-- `p->data[p->nwrite++ % PIPESIZE] = b` -/
def put (p : Pipe) (b : UInt8) : Pipe :=
  { p with
    data := Function.update p.data (p.nwrite % pipesize).toNat b
    nwrite := p.nwrite + 1 }

/-- `p->data[p->nread++ % PIPESIZE]` -/
def get (p : Pipe) : UInt8 × Pipe :=
  (p.data (p.nread % pipesize).toNat, { p with nread := p.nread + 1 })

end Pipe

/-- `pipeclose`.  With both ends closed the page is freed. -/
def pipeclose (p : Pipe) (writable : Bool) : Pipe :=
  if writable then { p with writeopen := false } else { p with readopen := false }

/-- Where a turn of a call ends: asleep, or with a return value. -/
inductive Turned where
  | asleep
  | returned (ret : Int)
  deriving DecidableEq

/-- The loop of `pipewrite` from byte `i` on, with `todo` bytes left; a writer sleeps at the byte that
does not fit.  The second result is the number of bytes written so far. -/
def pipewriteLoop (addr : Nat → UInt8) (n : Int32) (killed : Bool) :
    Nat → Nat → Pipe → Turned × Nat × Pipe
  | 0, i, p => (.returned n.toInt, i, p)
  | todo + 1, i, p =>
      if p.nwrite = p.nread + pipesize then
        if p.readopen = false ∨ killed = true then (.returned (-1), i, p) else (.asleep, i, p)
      else
        pipewriteLoop addr n killed todo (i + 1) (p.put (addr i))

/-- A turn of `pipewrite`, from byte `i` on. -/
def pipewrite (p : Pipe) (addr : Nat → UInt8) (n : Int32) (i : Nat) (killed : Bool) :
    Turned × Nat × Pipe :=
  pipewriteLoop addr n killed (n.toInt.toNat - i) i p

/-- The copying loop of `piperead`. -/
def pipereadLoop : Nat → Pipe → List UInt8 × Pipe
  | 0, p => ([], p)
  | todo + 1, p =>
      if p.nread = p.nwrite then ([], p)
      else
        let (b, p') := p.get
        let (bs, p'') := pipereadLoop todo p'
        (b :: bs, p'')

/-- A turn of `piperead`, with the bytes it stores into the caller's buffer. -/
def piperead (p : Pipe) (n : Int32) (killed : Bool) : Turned × List UInt8 × Pipe :=
  if p.nread = p.nwrite ∧ p.writeopen = true then
    if killed = true then (.returned (-1), [], p) else (.asleep, [], p)
  else
    let (bs, p') := pipereadLoop n.toInt.toNat p
    (.returned bs.length, bs, p')

/-! ## Runs -/

/-- A call and how far it has come: a writer has had its first `i` bytes accepted, a reader that has
returned has stored `bytes`. -/
inductive PipeCall where
  | write (addr : Nat → UInt8) (n : Int32) (i : Nat) (st : Turned)
  | read (n : Int32) (bytes : List UInt8) (st : Turned)

/-- The pipe, the calls made so far, and the bytes that crossed it: `accepted` in the order in which
writers stored them, `taken` in the order in which readers took them, each with the number of its
call. -/
structure PipeState where
  pipe : Pipe
  calls : Nat → Option PipeCall
  accepted : List (Nat × UInt8)
  taken : List (Nat × UInt8)

inductive PipeTurn where
  | write (c : Nat) (addr : Nat → UInt8) (n : Int32) (killed : Bool)
  | read (c : Nat) (n : Int32) (killed : Bool)
  | resume (c : Nat) (killed : Bool)
  | close (writable : Bool)

namespace PipeState

/-- The bytes `i, …, j - 1` of a buffer, as call `c`'s. -/
def stretch (c : Nat) (addr : Nat → UInt8) (i j : Nat) : List (Nat × UInt8) :=
  (List.range' i (j - i)).map fun k => (c, addr k)

def writing (s : PipeState) (c : Nat) (addr : Nat → UInt8) (n : Int32) (i : Nat) (killed : Bool) :
    PipeState :=
  let (st, j, p) := pipewrite s.pipe addr n i killed
  { pipe := p
    calls := Function.update s.calls c (some (.write addr n j st))
    accepted := s.accepted ++ stretch c addr i j
    taken := s.taken }

def reading (s : PipeState) (c : Nat) (n : Int32) (killed : Bool) : PipeState :=
  let (st, bs, p) := piperead s.pipe n killed
  { pipe := p
    calls := Function.update s.calls c (some (.read n bs st))
    accepted := s.accepted
    taken := s.taken ++ bs.map fun b => (c, b) }

def step (s : PipeState) : PipeTurn → PipeState
  | .write c addr n killed => s.writing c addr n 0 killed
  | .read c n killed => s.reading c n killed
  | .resume c killed =>
      match s.calls c with
      | some (.write addr n i .asleep) => s.writing c addr n i killed
      | some (.read n _ .asleep) => s.reading c n killed
      | _ => s
  | .close writable => { s with pipe := pipeclose s.pipe writable }

/-- A turn can be taken while the pipe has not been freed.  Each call has a number of its own. -/
def Admits (s : PipeState) : PipeTurn → Prop
  | .write c _ _ _ => (s.pipe.readopen = true ∨ s.pipe.writeopen = true) ∧ s.calls c = none
  | .read c _ _ => (s.pipe.readopen = true ∨ s.pipe.writeopen = true) ∧ s.calls c = none
  | .resume _ _ => s.pipe.readopen = true ∨ s.pipe.writeopen = true
  | .close _ => s.pipe.readopen = true ∨ s.pipe.writeopen = true

def fresh (data : Nat → UInt8) : PipeState :=
  { pipe := Pipe.alloc data, calls := fun _ => none, accepted := [], taken := [] }

end PipeState

/-! ## One turn -/

/-- The bytes in the pipe, oldest first. -/
def Pipe.Holds (p : Pipe) (q : List UInt8) : Prop :=
  Queued 512 (2 ^ 32) p.data p.nread.toNat p.nwrite.toNat q

namespace Pipe

variable {p p' : Pipe} {q : List UInt8} {b : UInt8}

theorem Holds.alloc (data : Nat → UInt8) : (Pipe.alloc data).Holds [] :=
  Queued.nil (UInt32.toNat_lt 0)

theorem Holds.empty_iff (h : p.Holds q) : p.nread = p.nwrite ↔ q = [] := by
  rw [← Queued.empty_iff h (by decide) p.nread.toNat_lt]
  exact UInt32.toNat_inj.symm

theorem Holds.full_iff (h : p.Holds q) : p.nwrite = p.nread + pipesize ↔ q.length = 512 := by
  rw [← Queued.full_iff h (by decide), ← UInt32.toNat_inj, UInt32.toNat_add]
  rfl

theorem Holds.distance (h : p.Holds q) : (p.nwrite - p.nread).toNat = q.length := by
  rw [UInt32.toNat_sub]
  exact Queued.distance h (by decide) p.nread.toNat_lt

theorem Holds.put (h : p.Holds q) (hlt : q.length < 512) : (p.put b).Holds (q ++ [b]) := by
  have hcell : (p.nwrite % pipesize).toNat = p.nwrite.toNat % 512 := UInt32.toNat_mod _ _
  have hnext : (p.nwrite + 1).toNat = (p.nwrite.toNat + 1) % 2 ^ 32 := UInt32.toNat_add _ _
  unfold Pipe.Holds Pipe.put
  rw [hcell, hnext]
  exact Queued.push h (by decide) hlt

theorem Holds.get (h : p.Holds (b :: q)) : p.get.1 = b ∧ p.get.2.Holds q := by
  have hcell : (p.nread % pipesize).toNat = p.nread.toNat % 512 := UInt32.toNat_mod _ _
  have hnext : (p.nread + 1).toNat = (p.nread.toNat + 1) % 2 ^ 32 := UInt32.toNat_add _ _
  obtain ⟨hb, hq⟩ := Queued.pop h (by decide)
  unfold Pipe.Holds Pipe.get
  rw [hcell, hnext]
  exact ⟨hb, hq⟩

end Pipe

/-- What a turn of a writer does: the bytes from `i` to `j` go in behind the others, and only a call
that returns -1 leaves bytes behind. -/
theorem pipewriteLoop_spec {addr : Nat → UInt8} {n : Int32} {killed : Bool} {todo i j : Nat}
    {p p' : Pipe} {q : List UInt8} {st : Turned} (hq : p.Holds q)
    (h : pipewriteLoop addr n killed todo i p = (st, j, p')) :
    i ≤ j ∧ j ≤ i + todo ∧ p'.Holds (q ++ (List.range' i (j - i)).map addr) ∧
      ∀ r, st = .returned r → r = n.toInt ∧ j = i + todo ∨ r = -1 := by
  induction todo generalizing i p q with
  | zero =>
      simp only [pipewriteLoop, Prod.mk.injEq] at h
      obtain ⟨rfl, rfl, rfl⟩ := h
      simp [hq]
  | succ todo ih =>
      rw [pipewriteLoop] at h
      by_cases hfull : p.nwrite = p.nread + pipesize
      · rw [if_pos hfull] at h
        have hsame : (st = .returned (-1) ∨ st = .asleep) ∧ i = j ∧ p = p' := by
          split at h <;> cases h <;> simp
        obtain ⟨hst, rfl, rfl⟩ := hsame
        refine ⟨Nat.le_refl i, Nat.le_add_right i _, by simpa using hq, ?_⟩
        rintro r rfl
        rcases hst with hst | hst
        · exact Or.inr (Turned.returned.inj hst)
        · cases hst
      · rw [if_neg hfull] at h
        have hlt : q.length < 512 := by
          have hle := Queued.length_le hq
          have hne := mt hq.full_iff.mpr hfull
          omega
        obtain ⟨hle, hto, hholds, hret⟩ := ih (hq.put hlt) h
        -- the byte just stored is the first of the stretch
        have hrange : List.range' i (j - i) = i :: List.range' (i + 1) (j - (i + 1)) := by
          rw [← List.range'_succ, show j - (i + 1) + 1 = j - i by omega]
        refine ⟨by omega, by omega, ?_, ?_⟩
        · rw [hrange, List.map_cons, ← List.singleton_append, ← List.append_assoc]
          exact hholds
        · intro r hr
          rcases hret r hr with ⟨hn, hj⟩ | hneg
          · exact Or.inl ⟨hn, by omega⟩
          · exact Or.inr hneg

theorem pipereadLoop_spec {todo : Nat} {p p' : Pipe} {q bs : List UInt8} (hq : p.Holds q)
    (h : pipereadLoop todo p = (bs, p')) :
    bs.length ≤ todo ∧ (∃ q', q = bs ++ q' ∧ p'.Holds q') ∧
      (bs = [] → todo = 0 ∨ p.nread = p.nwrite) := by
  induction todo generalizing p q bs with
  | zero =>
      simp only [pipereadLoop, Prod.mk.injEq] at h
      obtain ⟨rfl, rfl⟩ := h
      exact ⟨Nat.le_refl 0, ⟨q, rfl, hq⟩, fun _ => Or.inl rfl⟩
  | succ todo ih =>
      rw [pipereadLoop] at h
      by_cases hempty : p.nread = p.nwrite
      · rw [if_pos hempty, Prod.mk.injEq] at h
        obtain ⟨rfl, rfl⟩ := h
        exact ⟨Nat.zero_le _, ⟨q, rfl, hq⟩, fun _ => Or.inr hempty⟩
      · rw [if_neg hempty] at h
        cases q with
        | nil => exact absurd (hq.empty_iff.mpr rfl) hempty
        | cons b q =>
            obtain ⟨hb, hrest⟩ := hq.get
            cases hl : pipereadLoop todo p.get.2 with
            | mk bs' p'' =>
                simp only [hl, Prod.mk.injEq] at h
                obtain ⟨rfl, rfl⟩ := h
                obtain ⟨hlen, ⟨q', hq', hholds⟩, -⟩ := ih hrest hl
                refine ⟨by simpa using hlen, ⟨q', ?_, hholds⟩, fun hnil => by cases hnil⟩
                rw [hb, hq', List.cons_append]

/-! ## Whole runs -/

/-- The bytes of call `c`. -/
def bytesOf (c : Nat) (l : List (Nat × UInt8)) : List UInt8 :=
  (l.filter fun e => e.1 = c).map Prod.snd

section BytesOf

variable {c c' : Nat} {l : List (Nat × UInt8)}

theorem bytesOf_append_self (bs : List UInt8) :
    bytesOf c (l ++ bs.map fun b => (c, b)) = bytesOf c l ++ bs := by
  have hall : (bs.map fun b => (c, b)).filter (fun e => e.1 = c) = bs.map fun b => (c, b) := by
    rw [List.filter_eq_self]
    simp
  rw [bytesOf, List.filter_append, hall, List.map_append, List.map_map]
  simp [bytesOf, Function.comp_def]

theorem bytesOf_append_other (bs : List UInt8) (h : c ≠ c') :
    bytesOf c (l ++ bs.map fun b => (c', b)) = bytesOf c l := by
  have hnone : (bs.map fun b => (c', b)).filter (fun e => e.1 = c) = [] := by
    rw [List.filter_eq_nil_iff]
    simp [Ne.symm h]
  rw [bytesOf, List.filter_append, hnone, List.append_nil, bytesOf]

theorem map_snd_tagged (bs : List UInt8) :
    (l ++ bs.map fun b => (c, b)).map Prod.snd = l.map Prod.snd ++ bs := by
  simp [Function.comp_def]

end BytesOf

/-- What a call has done so far is what the run shows of it: a writer's bytes were accepted in order
from its first on, all of them when it returns its count; a reader got the bytes it took in order, and
returns their number. -/
def PipeCall.Served (s : PipeState) (c : Nat) : PipeCall → Prop
  | .write addr n i st =>
      bytesOf c s.accepted = (List.range i).map addr ∧ bytesOf c s.taken = [] ∧
        i ≤ n.toInt.toNat ∧ ∀ r, st = .returned r → r = n.toInt ∧ i = n.toInt.toNat ∨ r = -1
  | .read n bytes st =>
      bytesOf c s.accepted = [] ∧ bytesOf c s.taken = bytes ∧ bytes.length ≤ n.toInt.toNat ∧
        (st = .asleep → bytes = []) ∧ ∀ r, st = .returned r → r = bytes.length ∨ r = -1 ∧ bytes = []

/-- The bytes accepted are those taken and those still in the ring, and every call has been served. -/
structure Flow (s : PipeState) : Prop where
  queue : ∃ q, s.pipe.Holds q ∧ s.accepted.map Prod.snd = s.taken.map Prod.snd ++ q
  served : ∀ c call, s.calls c = some call → call.Served s c
  unused : ∀ c, s.calls c = none → bytesOf c s.accepted = [] ∧ bytesOf c s.taken = []

namespace Flow

variable {s s' : PipeState} {c : Nat}

theorem fresh (data : Nat → UInt8) : Flow (PipeState.fresh data) where
  queue := ⟨[], Pipe.Holds.alloc data, rfl⟩
  served c call h := by cases h
  unused c _ := ⟨rfl, rfl⟩

/-- Calls other than the one whose turn it was stay as they were served. -/
theorem of_turn (h : Flow s) {call : PipeCall} (hcalls : s'.calls = Function.update s.calls c (some call))
    (hacc : ∀ d, d ≠ c → bytesOf d s'.accepted = bytesOf d s.accepted)
    (htak : ∀ d, d ≠ c → bytesOf d s'.taken = bytesOf d s.taken)
    (hqueue : ∃ q, s'.pipe.Holds q ∧ s'.accepted.map Prod.snd = s'.taken.map Prod.snd ++ q)
    (hcall : call.Served s' c) : Flow s' where
  queue := hqueue
  served d other hd := by
    by_cases hdc : d = c
    · subst hdc
      rw [hcalls, Function.update_self, Option.some.injEq] at hd
      exact hd ▸ hcall
    · rw [hcalls, Function.update_of_ne hdc] at hd
      have hserved := h.served d other hd
      cases other with
      | write addr n i st => simpa only [PipeCall.Served, hacc d hdc, htak d hdc] using hserved
      | read n bytes st => simpa only [PipeCall.Served, hacc d hdc, htak d hdc] using hserved
  unused d hd := by
    have hdc : d ≠ c := by
      rintro rfl
      simp [hcalls] at hd
    rw [hcalls, Function.update_of_ne hdc] at hd
    rw [hacc d hdc, htak d hdc]
    exact h.unused d hd

theorem stretch_eq (addr : Nat → UInt8) (i j : Nat) :
    PipeState.stretch c addr i j = ((List.range' i (j - i)).map addr).map fun b => (c, b) := by
  rw [PipeState.stretch, List.map_map]
  rfl

/-- A turn of a writer that stands at byte `i`. -/
theorem writing (h : Flow s) {addr : Nat → UInt8} {n : Int32} {i : Nat} (killed : Bool)
    (hacc : bytesOf c s.accepted = (List.range i).map addr) (htak : bytesOf c s.taken = [])
    (hi : i ≤ n.toInt.toNat) : Flow (s.writing c addr n i killed) := by
  obtain ⟨q, hq, hbytes⟩ := h.queue
  cases hw : pipewrite s.pipe addr n i killed with
  | mk st rest =>
      obtain ⟨j, p⟩ := rest
      obtain ⟨hij, hjn, hholds, hret⟩ := pipewriteLoop_spec hq hw
      have hs : s.writing c addr n i killed =
          { pipe := p, calls := Function.update s.calls c (some (.write addr n j st)),
            accepted := s.accepted ++ PipeState.stretch c addr i j, taken := s.taken } := by
        simp only [PipeState.writing, hw]
      have hrange : List.range i ++ List.range' i (j - i) = List.range j := by
        have happ := @List.range'_append_1 0 i (j - i)
        rw [Nat.zero_add, Nat.add_sub_cancel' hij] at happ
        rw [List.range_eq_range', List.range_eq_range', happ]
      rw [hs]
      refine h.of_turn rfl ?_ (fun _ _ => rfl) ⟨_, hholds, ?_⟩ ⟨?_, htak, by omega, ?_⟩
      · intro d hd
        rw [stretch_eq, bytesOf_append_other _ hd]
      · rw [stretch_eq, map_snd_tagged, hbytes, List.append_assoc]
      · rw [stretch_eq, bytesOf_append_self, hacc, ← List.map_append, hrange]
      · intro r hr
        rcases hret r hr with ⟨hn, hj⟩ | hneg
        · exact Or.inl ⟨hn, by omega⟩
        · exact Or.inr hneg

/-- What a turn of a reader does: the bytes it returns come off the front, and it returns 0 for a
positive count only from an empty pipe whose write end is closed. -/
theorem piperead_spec {p p' : Pipe} {n : Int32} {killed : Bool} {q bs : List UInt8} {st : Turned}
    (hq : p.Holds q) (h : piperead p n killed = (st, bs, p')) :
    bs.length ≤ n.toInt.toNat ∧ (∃ q', q = bs ++ q' ∧ p'.Holds q') ∧ (st = .asleep → bs = []) ∧
      (∀ r, st = .returned r → r = bs.length ∨ r = -1 ∧ bs = []) ∧
      (st = .returned 0 → 0 < n.toInt → p.nread = p.nwrite ∧ p.writeopen = false) := by
  unfold piperead at h
  by_cases hwait : p.nread = p.nwrite ∧ p.writeopen = true
  · rw [if_pos hwait] at h
    have hsame : (st = .returned (-1) ∨ st = .asleep) ∧ [] = bs ∧ p = p' := by
      split at h <;> cases h <;> simp
    obtain ⟨hst, rfl, rfl⟩ := hsame
    refine ⟨Nat.zero_le _, ⟨q, rfl, hq⟩, fun _ => rfl, ?_, ?_⟩
    · rintro r rfl
      rcases hst with hst | hst
      · exact Or.inr ⟨Turned.returned.inj hst, rfl⟩
      · cases hst
    · rintro rfl
      rcases hst with hst | hst
      · exact absurd (Turned.returned.inj hst) (by decide)
      · cases hst
  · rw [if_neg hwait] at h
    cases hl : pipereadLoop n.toInt.toNat p with
    | mk bs' p'' =>
        simp only [hl, Prod.mk.injEq] at h
        obtain ⟨rfl, rfl, rfl⟩ := h
        obtain ⟨hlen, hrest, hstop⟩ := pipereadLoop_spec hq hl
        refine ⟨hlen, hrest, ?_, ?_, ?_⟩
        · intro hst
          cases hst
        · intro r hr
          exact Or.inl (Turned.returned.inj hr).symm
        · intro hzero hpos
          have hnil : bs' = [] := by
            have := Turned.returned.inj hzero
            exact List.eq_nil_of_length_eq_zero (by omega)
          have hempty : p.nread = p.nwrite := (hstop hnil).resolve_left (by omega)
          exact ⟨hempty, by simpa [hempty] using hwait⟩

theorem reading (h : Flow s) {n : Int32} (killed : Bool) (hacc : bytesOf c s.accepted = [])
    (htak : bytesOf c s.taken = []) : Flow (s.reading c n killed) := by
  obtain ⟨q, hq, hbytes⟩ := h.queue
  cases hr : piperead s.pipe n killed with
  | mk st rest =>
      obtain ⟨bs, p⟩ := rest
      obtain ⟨hlen, ⟨q', rfl, hholds⟩, hsleep, hret, -⟩ := piperead_spec hq hr
      have hs : s.reading c n killed =
          { pipe := p, calls := Function.update s.calls c (some (.read n bs st)),
            accepted := s.accepted, taken := s.taken ++ bs.map fun b => (c, b) } := by
        simp only [PipeState.reading, hr]
      rw [hs]
      refine h.of_turn rfl (fun _ _ => rfl) ?_ ⟨q', hholds, ?_⟩ ⟨hacc, ?_, hlen, hsleep, hret⟩
      · intro d hd
        exact bytesOf_append_other _ hd
      · rw [map_snd_tagged, hbytes, List.append_assoc]
      · rw [bytesOf_append_self, htak, List.nil_append]

theorem close (h : Flow s) (writable : Bool) :
    Flow { s with pipe := pipeclose s.pipe writable } where
  queue := by
    obtain ⟨q, hq, hbytes⟩ := h.queue
    refine ⟨q, ?_, hbytes⟩
    unfold pipeclose
    split <;> exact hq
  served c call hc := by
    have := h.served c call hc
    cases call <;> exact this
  unused := h.unused

theorem step (h : Flow s) {t : PipeTurn} (hok : s.Admits t) : Flow (s.step t) := by
  cases t with
  | write c addr n killed =>
      obtain ⟨hacc, htak⟩ := h.unused c hok.2
      exact h.writing killed hacc htak (Nat.zero_le _)
  | read c n killed =>
      obtain ⟨hacc, htak⟩ := h.unused c hok.2
      exact h.reading killed hacc htak
  | resume c killed =>
      simp only [PipeState.step]
      split
      · rename_i addr n i hc
        obtain ⟨hacc, htak, hi, -⟩ := h.served c _ hc
        exact h.writing killed hacc htak hi
      · rename_i n bytes hc
        obtain ⟨hacc, htak, -, hsleep, -⟩ := h.served c _ hc
        exact h.reading killed hacc (htak.trans (hsleep rfl))
      · exact h
  | close writable => exact h.close writable

end Flow

/-- **The pipe is a queue without loss or duplication.**  After every run of turns: the counters are
at most `PIPESIZE` apart, whatever their values; the bytes taken by readers are a prefix of those
accepted from writers; each call's bytes are there in order; and a turn by which a reader of a positive
count returns 0 meets an empty pipe with its write end closed. -/
theorem pipe_fifo {data : Nat → UInt8} {ts : List PipeTurn} {s : PipeState}
    (h : Run PipeState.step PipeState.Admits (PipeState.fresh data) ts s) :
    (s.pipe.nwrite - s.pipe.nread).toNat ≤ pipesize.toNat ∧
      s.taken.map Prod.snd <+: s.accepted.map Prod.snd ∧
      (∀ c call, s.calls c = some call → call.Served s c) ∧
      ∀ t c n bytes, s.Admits t → 0 < n.toInt →
        (s.step t).calls c = some (.read n bytes (.returned 0)) →
        s.calls c ≠ some (.read n bytes (.returned 0)) →
        s.pipe.nread = s.pipe.nwrite ∧ s.pipe.writeopen = false := by
  have hflow : Flow s := h.invariant (fun _ _ hs hok => hs.step hok) (Flow.fresh data)
  obtain ⟨q, hq, hbytes⟩ := hflow.queue
  refine ⟨?_, ⟨q, hbytes.symm⟩, hflow.served, ?_⟩
  · rw [hq.distance]
    exact Queued.length_le hq
  · intro t c n bytes _ hn hafter hbefore
    -- only a turn of call `c` itself makes it return
    have hread : ∀ d m killed, (s.reading d m killed).calls c = some (.read n bytes (.returned 0)) →
        s.pipe.nread = s.pipe.nwrite ∧ s.pipe.writeopen = false := by
      intro d m killed hd
      cases hr : piperead s.pipe m killed with
      | mk st rest =>
          obtain ⟨bs, p⟩ := rest
          obtain ⟨-, -, -, -, hzero⟩ := Flow.piperead_spec hq hr
          simp only [PipeState.reading, hr] at hd
          by_cases hcd : c = d
          · subst hcd
            rw [Function.update_self] at hd
            cases hd
            exact hzero rfl hn
          · rw [Function.update_of_ne hcd] at hd
            exact absurd hd hbefore
    have hwrite : ∀ d addr m i killed,
        (s.writing d addr m i killed).calls c ≠ some (.read n bytes (.returned 0)) := by
      intro d addr m i killed hd
      simp only [PipeState.writing] at hd
      by_cases hcd : c = d
      · subst hcd
        rw [Function.update_self] at hd
        cases hd
      · rw [Function.update_of_ne hcd] at hd
        exact hbefore hd
    cases t with
    | write d addr m killed => exact absurd hafter (hwrite d addr m 0 killed)
    | read d m killed => exact hread d m killed hafter
    | resume d killed =>
        simp only [PipeState.step] at hafter
        split at hafter
        · exact absurd hafter (hwrite _ _ _ _ _)
        · exact hread _ _ _ hafter
        · exact absurd hafter hbefore
    | close writable => exact absurd hafter hbefore

/-- A reader takes one of the two bytes that a writer stored. -/
theorem pipe_fifo_one_of_two :
    ∃ s, Run PipeState.step PipeState.Admits (PipeState.fresh fun _ => 0)
        [.write 0 (fun k => if k = 0 then 7 else 8) 2 false, .read 1 1 false] s ∧
      s.taken = [(1, 7)] ∧ s.accepted = [(0, 7), (0, 8)] ∧
      s.taken.map Prod.snd <+: s.accepted.map Prod.snd := by
  have hrun : Run PipeState.step PipeState.Admits (PipeState.fresh fun _ => 0)
      [.write 0 (fun k => if k = 0 then 7 else 8) 2 false, .read 1 1 false] _ :=
    Run.cons ⟨Or.inl rfl, rfl⟩ (Run.cons ⟨Or.inl rfl, rfl⟩ (Run.nil _))
  exact ⟨_, hrun, by decide +kernel, by decide +kernel, (pipe_fifo hrun).2.1⟩

end Xv6
end LfsXv6
