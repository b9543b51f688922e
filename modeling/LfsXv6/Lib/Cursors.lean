import LfsXv6.Lib.Run

/-!
# Cursors — an array that is read and written at positions

What is read or written through a cursor moves it on and leaves the others where they are.  When one cursor
alone writes, from the end of the array on, the array is a log: it grows by what is written, and whatever has
passed through a cursor since it stood at the beginning is the part of the log before it.
-/

namespace LfsXv6
namespace Lib

/-- An array, and a position in it for every cursor. -/
structure Cursors (κ α : Type) where
  data : List α
  pos : κ → Nat

inductive Transfer (κ α : Type) where
  | read (c : κ) (l : List α)
  | write (c : κ) (l : List α)
  | rewind (c : κ)

/-- `l` replaces what is in the array from `off` on. -/
def splice {α : Type} (data : List α) (off : Nat) (l : List α) : List α :=
  data.take off ++ l ++ data.drop (off + l.length)

namespace Transfer

variable {κ α : Type}

/-- What a transfer writes. -/
def written : Transfer κ α → List α
  | .write _ l => l
  | .read _ _ | .rewind _ => []

/-- What has passed through a cursor since it was rewound. -/
def passed [DecidableEq κ] (c : κ) (past : List α) : Transfer κ α → List α
  | .read d l | .write d l => if d = c then past ++ l else past
  | .rewind d => if d = c then [] else past

/-- Only the cursor `w` writes, and it is never rewound. -/
def Logs (w : κ) : Transfer κ α → Prop
  | .read _ _ => True
  | .write c _ => c = w
  | .rewind c => c ≠ w

end Transfer

namespace Cursors

variable {κ α : Type} [DecidableEq κ]

def move (x : Cursors κ α) (c : κ) (n : Nat) : Cursors κ α := { x with pos := Function.update x.pos c n }

def step (x : Cursors κ α) : Transfer κ α → Cursors κ α
  | .read c l => x.move c (x.pos c + l.length)
  | .write c l => { x.move c (x.pos c + l.length) with data := splice x.data (x.pos c) l }
  | .rewind c => x.move c 0

/-- What is read stands behind the cursor. -/
def Admits (x : Cursors κ α) : Transfer κ α → Prop
  | .read c l => l <+: x.data.drop (x.pos c)
  | .write _ _ | .rewind _ => True

variable {x y : Cursors κ α} {a : Transfer κ α} {as : List (Transfer κ α)} {c w : κ} {n : Nat} {l : List α}

omit [DecidableEq κ] in
/-- Nothing is written. -/
theorem splice_nil (data : List α) (off : Nat) : splice data off [] = data := by
  rw [splice, List.append_nil, List.length_nil, Nat.add_zero, List.take_append_drop]

omit [DecidableEq κ] in
theorem splice_length (data l : List α) : splice data data.length l = data ++ l := by
  rw [splice, List.take_length, List.drop_of_length_le (Nat.le_add_right _ _), List.append_nil]

omit [DecidableEq κ] in
theorem length_splice {data : List α} {off : Nat} (h : off ≤ data.length) :
    (splice data off l).length = max data.length (off + l.length) := by
  simp only [splice, List.length_append, List.length_take, List.length_drop]
  omega

/-- A cursor that stays where it is. -/
theorem move_self (x : Cursors κ α) (c : κ) : x.move c (x.pos c) = x := by
  rw [move, Function.update_eq_self]

theorem step_read_nil (x : Cursors κ α) (c : κ) : x.step (.read c []) = x := x.move_self c

theorem step_write_nil (x : Cursors κ α) (c : κ) : x.step (.write c []) = x := by
  rw [step, splice_nil]
  exact x.move_self c

/-! ## Cursors inside the array -/

/-- Every cursor stands in the array, or at its end. -/
def Within (x : Cursors κ α) : Prop := ∀ c, x.pos c ≤ x.data.length

theorem Within.move (h : Within x) (hn : n ≤ x.data.length) : Within (x.move c n) := by
  intro d
  show Function.update x.pos c n d ≤ _
  by_cases hd : d = c
  · rw [hd, Function.update_self]
    exact hn
  · rw [Function.update_of_ne hd]
    exact h d

/-- **Step lemma.** -/
theorem Within.step (h : Within x) (hok : x.Admits a) : Within (x.step a) := by
  cases a with
  | read c l =>
      have hlen := (hok : l <+: _).length_le
      rw [List.length_drop] at hlen
      have hc := h c
      exact h.move (by omega)
  | write c l =>
      intro d
      show Function.update x.pos c _ d ≤ (splice x.data (x.pos c) l).length
      rw [length_splice (h c)]
      by_cases hd : d = c
      · rw [hd, Function.update_self]
        exact le_max_right _ _
      · rw [Function.update_of_ne hd]
        exact (h d).trans (le_max_left _ _)
  | rewind c => exact h.move (Nat.zero_le _)

/-! ## Logs -/

/-- `w` stands at the end. -/
structure Logged (w : κ) (x : Cursors κ α) : Prop where
  within : Within x
  atEnd : x.pos w = x.data.length

/-- Something passes through a cursor. -/
theorem passed_take {data : List α} {p : κ → Nat} (hc : data.take n = data.take (p c) ++ l) (d : κ) :
    (if c = d then data.take (p d) ++ l else data.take (p d)) = data.take (Function.update p c n d) := by
  by_cases h : c = d
  · subst h
    rw [if_pos rfl, Function.update_self, hc]
  · rw [if_neg h, Function.update_of_ne (Ne.symm h)]

/-- **Step lemma.** -/
theorem Logged.step (h : Logged w x) (hok : x.Admits a) (hlogs : a.Logs w) :
    Logged w (x.step a) ∧ (x.step a).data = x.data ++ a.written ∧
      ∀ c, a.passed c (x.data.take (x.pos c)) = (x.step a).data.take ((x.step a).pos c) := by
  have hwithin := h.within.step hok
  cases a with
  | read c l =>
      change l <+: x.data.drop (x.pos c) at hok
      refine ⟨⟨hwithin, ?_⟩, (List.append_nil _).symm, passed_take ?_⟩
      · show Function.update x.pos c (x.pos c + l.length) w = _
        by_cases hw : w = c
        · -- at the end there is nothing to read
          subst hw
          rw [h.atEnd, List.drop_length, List.prefix_nil] at hok
          rw [Function.update_self, hok, h.atEnd]
          rfl
        · rw [Function.update_of_ne hw, h.atEnd]
          rfl
      · rw [List.take_add, List.prefix_iff_eq_take.mp hok, List.length_take]
        congr 1
        rw [List.take_eq_take_iff]
        have := hok.length_le
        omega
  | write c l =>
      obtain rfl : c = w := hlogs
      have hdata : splice x.data (x.pos c) l = x.data ++ l := by rw [h.atEnd, splice_length]
      refine ⟨⟨hwithin, ?_⟩, hdata, fun d => ?_⟩
      · show Function.update x.pos c (x.pos c + l.length) c = (splice x.data (x.pos c) l).length
        rw [Function.update_self, hdata, h.atEnd, List.length_append]
      · show _ = (splice x.data (x.pos c) l).take (Function.update x.pos c (x.pos c + l.length) d)
        have htake : x.data.take (x.pos d) = (x.data ++ l).take (x.pos d) :=
          (List.take_append_of_le_length (h.within d)).symm
        rw [hdata, htake]
        refine passed_take ?_ d
        rw [h.atEnd, ← List.length_append, List.take_length, List.take_left]
  | rewind c =>
      refine ⟨⟨hwithin, ?_⟩, (List.append_nil _).symm, fun d => ?_⟩
      · show Function.update x.pos c 0 w = _
        rw [Function.update_of_ne (Ne.symm hlogs), h.atEnd]
        rfl
      · show (if c = d then [] else _) = x.data.take (Function.update x.pos c 0 d)
        by_cases hd : c = d
        · rw [if_pos hd, hd, Function.update_self, List.take_zero]
        · rw [if_neg hd, Function.update_of_ne (Ne.symm hd)]

/-- **A log.**  The array holds what has been written, in order, and what has passed through a cursor is what stands
before it. -/
theorem Logged.run (hrun : Run Cursors.step Admits x as y) (hlogs : ∀ a ∈ as, a.Logs w) (h : Logged w x) :
    y.data = x.data ++ as.flatMap Transfer.written ∧
      ∀ c, as.foldl (Transfer.passed c) (x.data.take (x.pos c)) = y.data.take (y.pos c) := by
  induction hrun with
  | nil x => exact ⟨(List.append_nil _).symm, fun _ => rfl⟩
  | cons hok _ ih =>
      obtain ⟨hnext, hdata, hpassed⟩ := h.step hok (hlogs _ List.mem_cons_self)
      obtain ⟨hdata', hpassed'⟩ := ih (fun a ha => hlogs a (List.mem_cons_of_mem _ ha)) hnext
      refine ⟨?_, fun c => ?_⟩
      · rw [hdata', hdata, List.append_assoc, List.flatMap_cons]
      · rw [List.foldl_cons, hpassed c, hpassed' c]

end Cursors

end Lib
end LfsXv6
