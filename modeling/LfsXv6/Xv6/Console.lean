import LfsXv6.Lib.Ring
import LfsXv6.Lib.Run

/-!
# Console — line editing, and the processes that read lines

`consoleintr` stores the characters typed in a ring, echoes them, and lets the line that is being typed be
edited; `consoleread` takes the characters of complete lines.  The steps are those that `input.lock`
delimits: one character of `consoleintr`, and the part of `consoleread` up to a sleep or the return.  Any
number of processes read.  What is read is compared with what a line editor makes of the keys that were
typed.
-/

namespace LfsXv6
namespace Xv6
namespace Console

open Lib

/-! ## The keyboard -/

/-- `INPUT_BUF` -/
abbrev inputBuf : Nat := 128

/-- `C('P')` -/
abbrev ctrlP : UInt8 := 0x10

/-- `C('U')` -/
abbrev ctrlU : UInt8 := 0x15

/-- `C('H')` -/
abbrev ctrlH : UInt8 := 0x08

/-- `C('D')` -/
abbrev ctrlD : UInt8 := 0x04

abbrev newline : UInt8 := 0x0a

/-- `input`, without its lock. -/
structure Input where
  buf : Nat → UInt8
  r : UInt32
  w : UInt32
  e : UInt32

/-- What `consputc` is given: a character, or `BACKSPACE`. -/
abbrev Echo := Option UInt8

/-- `input.e--; consputc(BACKSPACE)` -/
def erase (k : Input) : Input := { k with e := k.e - 1 }

/-- The loop that kills a line, in at most so many turns, with what it echoes. -/
def killLine : Nat → Input → Input × List Echo
  | 0, k => (k, [])
  | n + 1, k =>
      if k.e ≠ k.w ∧ k.buf ((k.e - 1) % 128).toNat ≠ newline then
        let (k', out) := killLine n (erase k)
        (k', none :: out)
      else (k, [])

/-- One character of `consoleintr`: what it prints, and whether it wakes the readers up; `listing` is what
`procdump` prints. -/
def consoleintr (k : Input) (c : UInt8) (listing : List UInt8) : Input × List Echo × Bool :=
  if c = ctrlP then (k, listing.map some, false)
  else if c = ctrlU then
    let (k', out) := killLine (inputBuf + 1) k
    (k', out, false)
  else if c = ctrlH ∨ c = 0x7f then
    if k.e ≠ k.w then (erase k, [none], false) else (k, [], false)
  else if c ≠ 0 ∧ k.e - k.r < 128 then
    let c' := if c = 0x0d then newline else c
    let k' := { k with buf := Function.update k.buf (k.e % 128).toNat c', e := k.e + 1 }
    if c' = newline ∨ c' = ctrlD ∨ k'.e = k'.r + 128 then ({ k' with w := k'.e }, [some c'], true)
    else (k', [some c'], false)
  else (k, [], false)

/-- How a part of `consoleread` ends; `kept` says that the end-of-file character stays for the next call. -/
inductive ReadEnd where
  | returned
  | eof (kept : Bool)
  | failed
  | asleep
  deriving DecidableEq

/-- `consoleread` for a caller that still wants `n` of the `target` characters: those it stores. -/
def consoleread (killed : Bool) (target : Nat) : Nat → Input → Input × List UInt8 × ReadEnd
  | 0, k => (k, [], .returned)
  | n + 1, k =>
      if k.r = k.w then (k, [], if killed then .failed else .asleep)
      else
        let c := k.buf (k.r % 128).toNat
        let k' := { k with r := k.r + 1 }
        if c = ctrlD then
          if n + 1 < target then ({ k' with r := k'.r - 1 }, [], .eof true) else (k', [], .eof false)
        else if c = newline then (k', [c], .returned)
        else
          let (k'', cs, fin) := consoleread killed target n k'
          (k'', c :: cs, fin)

/-! ## The lines -/

/-- A line editor: the lines that are complete, and the one that is being typed. -/
structure Editor where
  committed : List UInt8
  edit : List UInt8

/-- A key, when `taken` characters have been read.  Where as many characters as the console can hold wait to be
read or edited, further ones are dropped, and the last one completes the line. -/
def Editor.key (x : Editor) (taken : Nat) (c : UInt8) : Editor :=
  if c = ctrlP then x
  else if c = ctrlU then { x with edit := [] }
  else if c = ctrlH ∨ c = 0x7f then { x with edit := x.edit.dropLast }
  else if c = 0 ∨ inputBuf ≤ x.committed.length - taken + x.edit.length then x
  else
    let edit := x.edit ++ [if c = 0x0d then newline else c]
    if newline ∈ edit ∨ ctrlD ∈ edit ∨ x.committed.length - taken + edit.length = inputBuf then
      ⟨x.committed ++ edit, []⟩
    else { x with edit := edit }

/-- A character on the screen, or one less. -/
def display : List UInt8 → Echo → List UInt8
  | line, some c => line ++ [c]
  | line, none => line.dropLast

/-- What the screen shows. -/
def shown (out : List Echo) : List UInt8 := out.foldl display []

/-- The ring holds the characters `done` of complete lines, and those of the line that is being typed. -/
structure Holds (k : Input) (done edit : List UInt8) : Prop where
  ring : Queued inputBuf (2 ^ 32) k.buf k.r.toNat k.e.toNat (done ++ edit)
  w_eq : k.w.toNat = (k.r.toNat + done.length) % 2 ^ 32

/-- The line that is being typed is not complete, and there is room to complete it. -/
structure Editing (done edit : List UInt8) : Prop where
  newline : newline ∉ edit
  ctrlD : ctrlD ∉ edit
  room : edit ≠ [] → (done ++ edit).length < inputBuf

section Holds

variable {k : Input} {done edit : List UInt8} {c : UInt8} {out : List Echo}

theorem shown_append (out out' : List Echo) : shown (out ++ out') = out'.foldl display (shown out) :=
  List.foldl_append

theorem toNat_sub_one (x : UInt32) : (x - 1).toNat = (2 ^ 32 - 1 + x.toNat) % 2 ^ 32 := by
  rw [UInt32.toNat_sub]
  rfl

theorem toNat_mod_128 (x : UInt32) : (x % 128).toNat = x.toNat % inputBuf := UInt32.toNat_mod x 128

theorem toNat_add_one (x : UInt32) : (x + 1).toNat = (x.toNat + 1) % 2 ^ 32 := UInt32.toNat_add x 1

theorem inputBuf_dvd : inputBuf ∣ 2 ^ 32 := ⟨2 ^ 25, by norm_num⟩

/-- The line being typed is empty when the indices agree. -/
theorem Holds.e_eq_w_iff (h : Holds k done edit) : k.e = k.w ↔ edit = [] := by
  have hlen : (done ++ edit).length ≤ 128 := h.ring.length_le
  rw [List.length_append] at hlen
  have hr := k.r.toNat_lt
  rw [← UInt32.toNat_inj, h.w_eq, h.ring.tail_eq, List.length_append]
  constructor
  · intro heq
    refine List.eq_nil_of_length_eq_zero ?_
    omega
  · rintro rfl
    rfl

theorem Holds.r_eq_w_iff (h : Holds k done edit) : k.r = k.w ↔ done = [] := by
  have hlen : (done ++ edit).length ≤ 128 := h.ring.length_le
  rw [List.length_append] at hlen
  have hr := k.r.toNat_lt
  rw [← UInt32.toNat_inj, h.w_eq]
  constructor
  · intro heq
    refine List.eq_nil_of_length_eq_zero ?_
    omega
  · rintro rfl
    exact (Nat.mod_eq_of_lt (by simpa using hr)).symm

theorem Holds.full (h : Holds k done edit) : (k.e - k.r < 128) ↔ (done ++ edit).length < inputBuf := by
  have hdist := h.ring.distance (by norm_num) k.r.toNat_lt
  rw [UInt32.lt_iff_toNat_lt, UInt32.toNat_sub, hdist]
  exact Iff.rfl

/-- The last character is erased. -/
theorem Holds.erase (h : Holds k done (edit ++ [c])) :
    k.buf ((k.e - 1) % 128).toNat = c ∧ Holds (erase k) done edit := by
  have hring := h.ring
  rw [← List.append_assoc] at hring
  obtain ⟨hcell, hpop⟩ := hring.unpush inputBuf_dvd (by norm_num)
  refine ⟨?_, ?_, h.w_eq⟩
  · rw [toNat_mod_128, toNat_sub_one]
    exact hcell
  · rw [Console.erase, toNat_sub_one]
    exact hpop

theorem Holds.type (h : Holds k done edit) (hroom : (done ++ edit).length < inputBuf) (c : UInt8) :
    Holds { k with buf := Function.update k.buf (k.e % 128).toNat c, e := k.e + 1 } done (edit ++ [c]) := by
  refine ⟨?_, h.w_eq⟩
  rw [toNat_mod_128, toNat_add_one, ← List.append_assoc]
  exact h.ring.push inputBuf_dvd hroom

/-- The line is complete. -/
theorem Holds.commit (h : Holds k done edit) : Holds { k with w := k.e } (done ++ edit) [] := by
  refine ⟨by rw [List.append_nil]; exact h.ring, ?_⟩
  exact h.ring.tail_eq

theorem Holds.next (h : Holds k (c :: done) edit) :
    k.buf (k.r % 128).toNat = c ∧ Holds { k with r := k.r + 1 } done edit := by
  obtain ⟨hcell, hpop⟩ := h.ring.pop inputBuf_dvd
  refine ⟨?_, ?_, ?_⟩
  · rw [toNat_mod_128]
    exact hcell
  · rw [toNat_add_one]
    exact hpop
  · rw [toNat_add_one, Nat.mod_add_mod, h.w_eq, List.length_cons, Nat.add_assoc, Nat.add_comm 1]

/-- A line that is killed disappears, character by character. -/
theorem killLine_eq {n : Nat} (h : Holds k done edit) (hedit : newline ∉ edit) (hn : edit.length ≤ n) :
    ∃ k', killLine (n + 1) k = (k', List.replicate edit.length none) ∧ Holds k' done [] := by
  induction edit using List.reverseRecOn generalizing k n with
  | nil =>
      have heq : k.e = k.w := h.e_eq_w_iff.mpr rfl
      exact ⟨k, by simp [killLine, heq], h⟩
  | append_singleton edit c ih =>
      obtain ⟨hcell, herase⟩ := h.erase
      have hne : k.e ≠ k.w := fun hc => by simpa using h.e_eq_w_iff.mp hc
      have hc : c ≠ newline := fun hc => hedit (by simp [hc])
      rw [List.length_append, List.length_singleton] at hn ⊢
      obtain ⟨n, rfl⟩ := Nat.exists_eq_succ_of_ne_zero (show n ≠ 0 by omega)
      obtain ⟨k', hk, hholds⟩ := ih herase (fun hc => hedit (by simp [hc])) (n := n) (by omega)
      refine ⟨k', ?_, hholds⟩
      rw [killLine, if_pos ⟨hne, by rw [hcell]; exact hc⟩, hk, List.replicate_succ]

/-- The screen after the echo of a killed line. -/
theorem foldl_replicate_none (l line : List UInt8) :
    (List.replicate l.length (none : Echo)).foldl display (line ++ l) = line := by
  induction l using List.reverseRecOn with
  | nil => simp
  | append_singleton l c ih =>
      rw [List.length_append, List.length_singleton, List.replicate_succ, List.foldl_cons,
        ← List.append_assoc]
      simpa [display] using ih

/-- A key that changes nothing. -/
theorem Holds.unchanged (h : Holds k done edit) (hedit : Editing done edit) (out : List Echo)
    (taken : List UInt8) :
    ∃ new, (⟨taken ++ done, edit⟩ : Editor).committed = taken ++ (done ++ new) ∧ Holds k (done ++ new) edit ∧
      Editing (done ++ new) edit ∧
      (shown out = taken ++ done ++ edit → shown (out ++ []) = taken ++ (done ++ new) ++ edit) ∧
      (false = false → new = []) :=
  ⟨[], by rw [List.append_nil], by rwa [List.append_nil], by rwa [List.append_nil],
    fun hshown => by simpa using hshown, fun _ => rfl⟩

/-- **One key.**  It does to the ring what it does to the lines of an editor; the readers are woken up when
there is something new to read, and the screen shows the line being typed behind the others. -/
theorem consoleintr_spec (h : Holds k done edit) (hedit : Editing done edit) (out : List Echo)
    (taken : List UInt8) (c : UInt8) (listing : List UInt8) :
    let x := Editor.key ⟨taken ++ done, edit⟩ taken.length c
    ∃ k' out' woken, consoleintr k c listing = (k', out', woken) ∧
      ∃ new, x.committed = taken ++ (done ++ new) ∧ Holds k' (done ++ new) x.edit ∧
        Editing (done ++ new) x.edit ∧
        (c ≠ ctrlP → shown out = taken ++ done ++ edit →
          shown (out ++ out') = taken ++ (done ++ new) ++ x.edit) ∧
        (woken = false → new = []) := by
  intro x
  have hkeep := h.unchanged hedit out taken
  have hkept : ∃ new, (⟨taken ++ done, edit⟩ : Editor).committed = taken ++ (done ++ new) ∧
      Holds k (done ++ new) edit ∧ Editing (done ++ new) edit ∧
      (c ≠ ctrlP → shown out = taken ++ done ++ edit →
        shown (out ++ []) = taken ++ (done ++ new) ++ edit) ∧ (false = false → new = []) := by
    obtain ⟨new, hcommitted, hholds, hediting, hshown, hnew⟩ := hkeep
    exact ⟨new, hcommitted, hholds, hediting, fun _ => hshown, hnew⟩
  have hwaiting : (taken ++ done).length - taken.length + edit.length = (done ++ edit).length := by
    simp
  unfold consoleintr
  by_cases hP : c = ctrlP
  · have hx : x = ⟨taken ++ done, edit⟩ := if_pos hP
    rw [if_pos hP, hx]
    exact ⟨_, _, _, rfl, [], by rw [List.append_nil], by rwa [List.append_nil], by rwa [List.append_nil],
      fun hc => absurd hP hc, fun _ => rfl⟩
  rw [if_neg hP]
  by_cases hU : c = ctrlU
  · have hx : x = ⟨taken ++ done, []⟩ := (if_neg hP).trans (if_pos hU)
    rw [if_pos hU, hx]
    have hlen : (done ++ edit).length ≤ inputBuf := h.ring.length_le
    rw [List.length_append] at hlen
    obtain ⟨k', hkill, hholds⟩ := killLine_eq h hedit.newline (n := inputBuf) (by omega)
    refine ⟨k', List.replicate edit.length none, false, by simp only [hkill], [], by rw [List.append_nil], ?_, ?_,
      fun _ hshown => ?_, fun _ => rfl⟩
    · rwa [List.append_nil]
    · exact ⟨by simp, by simp, by simp⟩
    · rw [shown_append, hshown, foldl_replicate_none]
      simp
  rw [if_neg hU]
  by_cases hH : c = ctrlH ∨ c = 0x7f
  · have hx : x = ⟨taken ++ done, edit.dropLast⟩ := (if_neg hP).trans ((if_neg hU).trans (if_pos hH))
    rw [if_pos hH, hx]
    cases edit using List.reverseRecOn with
    | nil =>
        rw [if_neg (not_not_intro (h.e_eq_w_iff.mpr rfl))]
        exact ⟨_, _, _, rfl, hkept⟩
    | append_singleton edit y =>
        rw [if_pos fun hc => by simpa using h.e_eq_w_iff.mp hc]
        simp only [List.dropLast_concat]
        refine ⟨_, _, false, rfl, [], by rw [List.append_nil], ?_, ?_, fun _ hshown => ?_, fun _ => rfl⟩
        · rw [List.append_nil]
          exact h.erase.2
        · rw [List.append_nil]
          have hroom := hedit.room (by simp)
          refine ⟨fun hc => hedit.newline (by simp [hc]), fun hc => hedit.ctrlD (by simp [hc]), fun _ => ?_⟩
          rw [List.length_append] at hroom ⊢
          rw [List.length_append] at hroom
          omega
        · rw [shown_append, hshown]
          simp [display, ← List.append_assoc]
  rw [if_neg hH]
  have hx₀ : x = if c = 0 ∨ inputBuf ≤ (taken ++ done).length - taken.length + edit.length then
      ⟨taken ++ done, edit⟩ else
      if newline ∈ edit ++ [if c = 0x0d then newline else c] ∨ ctrlD ∈ edit ++ [if c = 0x0d then newline else c] ∨
        (taken ++ done).length - taken.length + (edit ++ [if c = 0x0d then newline else c]).length = inputBuf then
        ⟨taken ++ done ++ (edit ++ [if c = 0x0d then newline else c]), []⟩
      else ⟨taken ++ done, edit ++ [if c = 0x0d then newline else c]⟩ :=
    (if_neg hP).trans ((if_neg hU).trans (if_neg hH))
  clear_value x
  rw [hwaiting] at hx₀
  by_cases hroom : c ≠ 0 ∧ k.e - k.r < 128
  · have hlt := h.full.mp hroom.2
    rw [if_pos hroom]
    rw [if_neg (not_or.mpr ⟨hroom.1, not_le.mpr hlt⟩)] at hx₀
    generalize (if c = 0x0d then newline else c) = c' at hx₀ ⊢
    have htype := h.type hlt c'
    simp only
    have hout : shown out = taken ++ done ++ edit →
        shown (out ++ [some c']) = taken ++ done ++ (edit ++ [c']) := by
      intro hshown
      rw [shown_append, hshown]
      simp [display]
    -- the ring is full when the edit index is one turn ahead
    have hfull : (k.e + 1 = k.r + 128) ↔ (done ++ (edit ++ [c'])).length = inputBuf := by
      rw [← htype.ring.full_iff (by norm_num), ← UInt32.toNat_inj, UInt32.toNat_add k.r 128]
      exact Iff.rfl
    have hend : (c' = newline ∨ c' = ctrlD ∨ k.e + 1 = k.r + 128) ↔
        (newline ∈ edit ++ [c'] ∨ ctrlD ∈ edit ++ [c'] ∨
          (taken ++ done).length - taken.length + (edit ++ [c']).length = inputBuf) := by
      rw [hfull]
      have hn := hedit.newline
      have hd := hedit.ctrlD
      have hlen : (taken ++ done).length - taken.length + (edit ++ [c']).length =
          (done ++ (edit ++ [c'])).length := by simp
      rw [hlen]
      simp only [List.mem_append, List.mem_singleton, hn, hd, false_or]
      exact or_congr eq_comm (or_congr eq_comm Iff.rfl)
    by_cases hc : c' = newline ∨ c' = ctrlD ∨ k.e + 1 = k.r + 128
    · rw [if_pos (hend.mp hc)] at hx₀
      rw [if_pos hc, hx₀]
      refine ⟨_, _, true, rfl, edit ++ [c'], by rw [List.append_assoc], htype.commit, ⟨by simp, by simp, by simp⟩,
        fun _ hshown => ?_, by simp⟩
      simpa using hout hshown
    · rw [if_neg fun hc' => hc (hend.mpr hc')] at hx₀
      rw [if_neg hc, hx₀]
      obtain ⟨hn, hd, hne⟩ : c' ≠ newline ∧ c' ≠ ctrlD ∧ k.e + 1 ≠ k.r + 128 := by
        simpa only [not_or] using hc
      refine ⟨_, _, false, rfl, [], by rw [List.append_nil], by rwa [List.append_nil], ?_,
        fun _ hshown => by simpa using hout hshown, fun _ => rfl⟩
      rw [List.append_nil]
      refine ⟨?_, ?_, fun _ => ?_⟩
      · simpa using ⟨hedit.newline, hn.symm⟩
      · simpa using ⟨hedit.ctrlD, hd.symm⟩
      · exact lt_of_le_of_ne htype.ring.length_le fun hc' => hne (hfull.mpr hc')
  · have hfull : c = 0 ∨ inputBuf ≤ (done ++ edit).length := by
      by_contra hno
      obtain ⟨hc, hlt⟩ := not_or.mp hno
      exact hroom ⟨hc, h.full.mpr (not_le.mp hlt)⟩
    rw [if_pos hfull] at hx₀
    rw [if_neg hroom, hx₀]
    exact ⟨_, _, _, rfl, hkept⟩

/-- What a part of `consoleread` that stores `cs` leaves behind of the lines `done`. -/
structure Read (target n : Nat) (done cs : List UInt8) (fin : ReadEnd) (done' : List UInt8) : Prop where
  length_le : cs.length ≤ n
  ctrlD : ctrlD ∉ cs
  newline : newline ∉ cs.dropLast
  /-- The characters taken: those stored, and an end-of-file character that is not kept. -/
  taken : done = cs ++ (if fin = .eof false then [Console.ctrlD] else []) ++ done'
  returned : fin = .returned → cs.length = n ∨ cs.getLast? = some Console.newline
  eof : ∀ kept, fin = .eof kept → Console.newline ∉ cs ∧ kept = decide (n - cs.length < target)
  asleep : fin = .asleep ∨ fin = .failed → done' = [] ∧ Console.newline ∉ cs ∧ cs.length < n

theorem consoleread_spec (h : Holds k done edit) (killed : Bool) (target n : Nat) :
    ∃ k' cs fin done', consoleread killed target n k = (k', cs, fin) ∧ Holds k' done' edit ∧
      Read target n done cs fin done' ∧ (fin = .failed → killed = true) := by
  induction n generalizing k done with
  | zero =>
      exact ⟨k, [], .returned, done, rfl, h, ⟨by simp, by simp, by simp, by simp, by simp, by simp, by simp⟩,
        by simp⟩
  | succ n ih =>
      cases done with
      | nil =>
          have heq : k.r = k.w := h.r_eq_w_iff.mpr rfl
          refine ⟨k, [], if killed then .failed else .asleep, [], by rw [consoleread, if_pos heq], h, ?_, ?_⟩
          · cases killed <;> exact ⟨by simp, by simp, by simp, by simp, by simp, by simp, by simp⟩
          · cases killed <;> simp
      | cons c done =>
          have hne : k.r ≠ k.w := fun hc => by simpa using h.r_eq_w_iff.mp hc
          obtain ⟨hcell, hnext⟩ := h.next
          rw [consoleread, if_neg hne]
          simp only [hcell]
          by_cases hD : c = ctrlD
          · subst hD
            rw [if_pos rfl]
            by_cases hkept : n + 1 < target
            · rw [if_pos hkept]
              have hback : ({ k with r := k.r + 1 - 1 } : Input) = k := by rw [UInt32.add_sub_cancel]
              refine ⟨_, [], .eof true, ctrlD :: done, rfl, by rw [hback]; exact h, ?_, by simp⟩
              exact ⟨by simp, by simp, by simp, by simp, by simp, by simp [hkept], by simp⟩
            · rw [if_neg hkept]
              refine ⟨_, [], .eof false, done, rfl, hnext, ?_, by simp⟩
              exact ⟨by simp, by simp, by simp, by simp, by simp, by simpa using hkept, by simp⟩
          · rw [if_neg hD]
            by_cases hN : c = newline
            · subst hN
              rw [if_pos rfl]
              refine ⟨_, [newline], .returned, done, rfl, hnext, ?_, by simp⟩
              exact ⟨by simp, by simpa using Ne.symm hD, by simp, by simp, by simp, by simp, by simp⟩
            · rw [if_neg hN]
              obtain ⟨k', cs, fin, done', hread, hholds, hspec, hfailed⟩ := ih hnext
              refine ⟨k', c :: cs, fin, done', by rw [hread], hholds, ?_, hfailed⟩
              have hnl : newline ∉ cs → newline ∉ c :: cs := fun hcs => by simp [hcs, Ne.symm hN]
              refine ⟨by simpa using hspec.length_le, ?_, ?_, ?_, ?_, ?_, ?_⟩
              · simpa using ⟨Ne.symm hD, hspec.ctrlD⟩
              · cases cs with
                | nil => simp
                | cons d cs => simpa using ⟨Ne.symm hN, hspec.newline⟩
              · rw [hspec.taken]
                rfl
              · intro hfin
                rcases hspec.returned hfin with hlen | hlast
                · exact Or.inl (by simp [hlen])
                · refine Or.inr ?_
                  cases cs with
                  | nil => cases hlast
                  | cons d cs => simpa using hlast
              · intro kept hfin
                obtain ⟨hcs, hkept⟩ := hspec.eof kept hfin
                exact ⟨hnl hcs, by rw [hkept, List.length_cons, Nat.add_sub_add_right]⟩
              · intro hfin
                obtain ⟨hdone, hcs, hlen⟩ := hspec.asleep hfin
                exact ⟨hdone, hnl hcs, by simpa using hlen⟩

end Holds

/-! ## Runs -/

/-- A process: outside `consoleread`, or asleep in it, or woken up; it wants `target` characters and has
stored `got`. -/
inductive ReadPc where
  | idle
  | asleep (target : Nat) (got : List UInt8)
  | awake (target : Nat) (got : List UInt8)

/-- A return of `consoleread` to a process: how many characters it asked for, what it got, and whether
end-of-file was typed. -/
structure Returned where
  proc : Nat
  target : Nat
  got : List UInt8
  eof : Bool

/-- The console and the processes.  For the specification: what was printed, and whether `procdump` was among
it; what a line editor makes of the keys; the characters taken from the ring, and the calls that have
returned. -/
structure ConsoleRun where
  input : Input
  pc : Nat → ReadPc
  killed : Nat → Bool
  echoed : List Echo
  listed : Bool
  typed : Editor
  taken : List UInt8
  returned : List Returned

inductive ConsoleEvent where
  /-- A key, and what `procdump` would print. -/
  | key (c : UInt8) (listing : List UInt8)
  | read (p : Nat) (n : Int32)
  | resume (p : Nat)
  | kill (p : Nat)

namespace ConsoleRun

def booted (buf : Nat → UInt8) : ConsoleRun :=
  ⟨⟨buf, 0, 0, 0⟩, fun _ => .idle, fun _ => false, [], false, ⟨[], []⟩, [], []⟩

/-- Wake up whoever sleeps in `consoleread`. -/
def wakeup (pc : Nat → ReadPc) (p : Nat) : ReadPc :=
  match pc p with
  | .asleep target got => .awake target got
  | x => x

/-- Process `p` goes on reading. -/
def turn (s : ConsoleRun) (p target : Nat) (got : List UInt8) : ConsoleRun :=
  let (input, cs, fin) := consoleread (s.killed p) target (target - got.length) s.input
  let s' : ConsoleRun :=
    { s with
      input := input
      taken := s.taken ++ cs ++ (if fin = .eof false then [ctrlD] else []) }
  match fin with
  | .returned =>
      { s' with
        pc := Function.update s.pc p .idle, returned := s.returned ++ [⟨p, target, got ++ cs, false⟩] }
  | .eof _ =>
      { s' with
        pc := Function.update s.pc p .idle, returned := s.returned ++ [⟨p, target, got ++ cs, true⟩] }
  | .failed => { s' with pc := Function.update s.pc p .idle }
  | .asleep => { s' with pc := Function.update s.pc p (.asleep target (got ++ cs)) }

def step (s : ConsoleRun) : ConsoleEvent → ConsoleRun
  | .key c listing =>
      let (input, out, woken) := consoleintr s.input c listing
      { s with
        input := input
        pc := if woken then wakeup s.pc else s.pc
        echoed := s.echoed ++ out
        listed := s.listed || c == ctrlP
        typed := s.typed.key s.taken.length c }
  | .read p n => s.turn p n.toInt.toNat []
  | .resume p =>
      match s.pc p with
      | .awake target got => s.turn p target got
      | _ => s
  | .kill p =>
      { s with
        killed := Function.update s.killed p true, pc := Function.update s.pc p (wakeup s.pc p) }

def Admits (s : ConsoleRun) : ConsoleEvent → Prop
  | .key _ _ => True
  | .read p _ => s.pc p = .idle
  | .resume p => ∃ target got, s.pc p = .awake target got
  | .kill _ => True

/-- A process in the middle of a line. -/
structure Partial (target : Nat) (got : List UInt8) : Prop where
  length_lt : got.length < target
  ctrlD : ctrlD ∉ got
  newline : newline ∉ got

/-- A call gets one line at most, and less than it asked for only at the end of a line or of the file. -/
structure Line (x : Returned) : Prop where
  length_le : x.got.length ≤ x.target
  ctrlD : ctrlD ∉ x.got
  newline : newline ∉ x.got.dropLast
  short : x.got.length < x.target → x.got.getLast? = some Console.newline ∨ x.eof = true

/-- What the readers have taken and what waits in the ring are the lines that have been typed, and the ring holds
the line that is being typed; all of it is on the screen, if no listing has been printed there; and nobody
sleeps while there is something to read. -/
structure Faithful (s : ConsoleRun) (done edit : List UInt8) : Prop where
  holds : Holds s.input done edit
  editing : Editing done edit
  typed : s.typed = ⟨s.taken ++ done, edit⟩
  shown : s.listed = false → shown s.echoed = s.taken ++ done ++ edit
  asleep : ∀ p target got, s.pc p = .asleep target got → done = [] ∧ Partial target got
  awake : ∀ p target got, s.pc p = .awake target got → Partial target got
  returned : ∀ x ∈ s.returned, Line x

section Faithful

variable {s : ConsoleRun} {done edit got cs : List UInt8} {p target : Nat} {e : ConsoleEvent}
variable {es : List ConsoleEvent} {fin : ReadEnd} {done' : List UInt8}

theorem wakeup_ne_asleep (pc : Nat → ReadPc) (p target : Nat) (got : List UInt8) :
    wakeup pc p ≠ .asleep target got := by
  unfold wakeup
  split <;> simp_all

theorem wakeup_awake {pc : Nat → ReadPc} (h : wakeup pc p = .awake target got) :
    pc p = .asleep target got ∨ pc p = .awake target got := by
  unfold wakeup at h
  split at h
  · rename_i heq
    cases h
    exact Or.inl heq
  · exact Or.inr h

/-- What a call has got when it returns is a line. -/
theorem line_of_read (h : Read target (target - got.length) done cs fin done') (hgot : got.length ≤ target)
    (hD : ctrlD ∉ got) (hN : newline ∉ got) (p : Nat) {eof : Bool}
    (hfin : fin = .returned ∧ eof = false ∨ ∃ kept, fin = .eof kept ∧ eof = true) :
    Line ⟨p, target, got ++ cs, eof⟩ := by
  have hlen := h.length_le
  refine ⟨?_, ?_, ?_, ?_⟩
  · show (got ++ cs).length ≤ target
    rw [List.length_append]
    omega
  · simpa using ⟨hD, h.ctrlD⟩
  · cases cs with
    | nil =>
        rw [List.append_nil]
        exact fun hc => hN (List.mem_of_mem_dropLast hc)
    | cons c cs =>
        rw [List.dropLast_append_of_ne_nil (List.cons_ne_nil _ _)]
        exact fun hc => (List.mem_append.mp hc).elim hN h.newline
  · intro (hlt : (got ++ cs).length < target)
    rcases hfin with ⟨hfin, _⟩ | ⟨kept, _, heof⟩
    · rcases h.returned hfin with hcs | hlast
      · rw [List.length_append] at hlt
        omega
      · exact Or.inl (by rw [List.getLast?_append, hlast]; rfl)
    · exact Or.inr heof

/-- A part of `consoleread`. -/
theorem Faithful.turn (h : Faithful s done edit) (hgot : got.length ≤ target) (hD : ctrlD ∉ got)
    (hN : newline ∉ got) (p : Nat) : ∃ done', Faithful (s.turn p target got) done' edit := by
  obtain ⟨k', cs, fin, done', hread, hholds, hspec, _⟩ :=
    consoleread_spec h.holds (s.killed p) target (target - got.length)
  have htaken := hspec.taken
  have hediting : Editing done' edit := by
    refine ⟨h.editing.newline, h.editing.ctrlD, fun hne => ?_⟩
    have hroom := h.editing.room hne
    rw [htaken] at hroom
    simp only [List.length_append] at hroom ⊢
    omega
  have hall : s.taken ++ done = s.taken ++ cs ++ (if fin = .eof false then [ctrlD] else []) ++ done' := by
    rw [htaken]
    simp only [List.append_assoc]
  have htyped := h.typed
  have hshown := h.shown
  rw [hall] at htyped hshown
  have hempty : done = [] → done' = [] := by
    intro hdone
    rw [hdone] at htaken
    exact (List.append_eq_nil_iff.mp htaken.symm).2
  have hasleep : ∀ q target' got', q ≠ p → s.pc q = .asleep target' got' →
      done' = [] ∧ Partial target' got' := fun q target' got' _ hq => by
    obtain ⟨hdone, hpart⟩ := h.asleep q target' got' hq
    exact ⟨hempty hdone, hpart⟩
  have hidle : ∀ {r : List Returned}, (∀ x ∈ r, Line x) → Faithful { s with
      input := k'
      taken := s.taken ++ cs ++ (if fin = .eof false then [ctrlD] else [])
      pc := Function.update s.pc p .idle
      returned := r } done' edit := by
    intro r hr
    refine ⟨hholds, hediting, htyped, hshown, ?_, ?_, hr⟩
    · intro q target' got' hq
      by_cases hqp : q = p
      · simp [hqp] at hq
      · simp only [Function.update_of_ne hqp] at hq
        exact hasleep q target' got' hqp hq
    · intro q target' got' hq
      by_cases hqp : q = p
      · simp [hqp] at hq
      · simp only [Function.update_of_ne hqp] at hq
        exact h.awake q target' got' hq
  have hmore : ∀ {x : Returned}, Line x → ∀ y ∈ s.returned ++ [x], Line y := by
    intro x hx y hy
    rcases List.mem_append.mp hy with hy | hy
    · exact h.returned y hy
    · rw [List.mem_singleton.mp hy]
      exact hx
  refine ⟨done', ?_⟩
  unfold ConsoleRun.turn
  rw [hread]
  cases fin with
  | returned => exact hidle (hmore (line_of_read hspec hgot hD hN p (Or.inl ⟨rfl, rfl⟩)))
  | eof kept => exact hidle (hmore (line_of_read hspec hgot hD hN p (Or.inr ⟨kept, rfl, rfl⟩)))
  | failed => exact hidle h.returned
  | asleep =>
      obtain ⟨hdone', hcs, hlt⟩ := hspec.asleep (Or.inl rfl)
      refine ⟨hholds, hediting, htyped, hshown, ?_, ?_, h.returned⟩
      · intro q target' got' hq
        by_cases hqp : q = p
        · subst hqp
          simp only [Function.update_self, ReadPc.asleep.injEq] at hq
          obtain ⟨rfl, rfl⟩ := hq
          refine ⟨hdone', ?_, ?_, ?_⟩
          · rw [List.length_append]
            omega
          · simpa using ⟨hD, hspec.ctrlD⟩
          · simpa using ⟨hN, hcs⟩
        · simp only [Function.update_of_ne hqp] at hq
          exact hasleep q target' got' hqp hq
      · intro q target' got' hq
        by_cases hqp : q = p
        · simp [hqp] at hq
        · simp only [Function.update_of_ne hqp] at hq
          exact h.awake q target' got' hq

/-- One event. -/
theorem Faithful.step (h : Faithful s done edit) (hok : s.Admits e) :
    ∃ done' edit', Faithful (s.step e) done' edit' := by
  cases e with
  | key c listing =>
      obtain ⟨k', out', woken, hkey, new, hcommitted, hholds, hediting, hshown, hwoken⟩ :=
        consoleintr_spec h.holds h.editing s.echoed s.taken c listing
      rw [← h.typed] at hcommitted hholds hediting hshown
      refine ⟨done ++ new, (s.typed.key s.taken.length c).edit, ?_⟩
      simp only [ConsoleRun.step, hkey]
      refine ⟨hholds, hediting, ?_, fun hlisted => ?_, ?_, ?_, h.returned⟩
      · rw [← hcommitted]
      · obtain ⟨hbefore, hc⟩ := Bool.or_eq_false_iff.mp hlisted
        exact hshown (by simpa using hc) (h.shown hbefore)
      · intro p target got hp
        cases woken with
        | true => exact absurd hp (wakeup_ne_asleep _ _ _ _)
        | false =>
            obtain ⟨hdone, hpart⟩ := h.asleep p target got hp
            exact ⟨by rw [hdone, hwoken rfl]; rfl, hpart⟩
      · intro p target got hp
        cases woken with
        | true =>
            rcases wakeup_awake hp with hp | hp
            · exact (h.asleep p target got hp).2
            · exact h.awake p target got hp
        | false => exact h.awake p target got hp
  | read p n =>
      have hD : ctrlD ∉ ([] : List UInt8) := by simp
      have hN : newline ∉ ([] : List UInt8) := by simp
      obtain ⟨done', h'⟩ := h.turn (Nat.zero_le n.toInt.toNat) hD hN p
      exact ⟨done', edit, h'⟩
  | resume p =>
      obtain ⟨target, got, hp⟩ := hok
      have hpart := h.awake p target got hp
      obtain ⟨done', h'⟩ := h.turn hpart.length_lt.le hpart.ctrlD hpart.newline p
      simp only [ConsoleRun.step, hp]
      exact ⟨done', edit, h'⟩
  | kill p =>
      refine ⟨done, edit, h.holds, h.editing, h.typed, h.shown, ?_, ?_, h.returned⟩
      · intro q target got hq
        by_cases hqp : q = p
        · subst hqp
          simp only [ConsoleRun.step, Function.update_self] at hq
          exact absurd hq (wakeup_ne_asleep _ _ _ _)
        · simp only [ConsoleRun.step, Function.update_of_ne hqp] at hq
          exact h.asleep q target got hq
      · intro q target got hq
        by_cases hqp : q = p
        · subst hqp
          simp only [ConsoleRun.step, Function.update_self] at hq
          rcases wakeup_awake hq with hq | hq
          · exact (h.asleep q target got hq).2
          · exact h.awake q target got hq
        · simp only [ConsoleRun.step, Function.update_of_ne hqp] at hq
          exact h.awake q target got hq

/-- **The console.**  Whatever is typed and however many processes read: what they take and what waits in the
ring are the lines that a line editor makes of the keys, and the line being typed is the editor's, so that
nothing is lost, repeated or overwritten and an erased character is never read; the screen shows the same, until
a listing is printed on it; each call gets at most a line, and less than it asked for only at its end or at
end-of-file; and no process sleeps while a complete line waits. -/
theorem console_faithful {buf : Nat → UInt8} (hrun : Run step Admits (booted buf) es s) :
    ∃ done edit, Faithful s done edit := by
  refine hrun.invariant (I := fun s => ∃ done edit, Faithful s done edit) ?_ ?_
  · rintro s e ⟨done, edit, h⟩ hok
    exact h.step hok
  · refine ⟨[], [], ⟨Queued.nil (show (0 : UInt32).toNat < 2 ^ 32 by decide), rfl⟩, ⟨by simp, by simp, by simp⟩, rfl,
      fun _ => rfl, ?_, ?_, by simp [booted]⟩
    · intro p target got hp
      cases hp
    · intro p target got hp
      cases hp

/-- A process asks for ten characters and sleeps; `b`, a backspace, `a` and the end of the line are typed. -/
theorem console_faithful_line : ∃ s, Run step Admits (booted fun _ => 0)
    [.read 0 10, .key 98 [], .key 8 [], .key 97 [], .key 13 [], .resume 0] s ∧
      s.returned.map (fun x => x.got) = [[97, 10]] ∧ ∃ done edit, Faithful s done edit := by
  have hrun : Run step Admits (booted fun _ => 0)
      [.read 0 10, .key 98 [], .key 8 [], .key 97 [], .key 13 [], .resume 0] _ :=
    .cons rfl (.cons trivial (.cons trivial (.cons trivial (.cons trivial (.cons ⟨10, [], rfl⟩ (.nil _))))))
  exact ⟨_, hrun, by decide +kernel, console_faithful hrun⟩

end Faithful

end ConsoleRun

end Console
end Xv6
end LfsXv6
