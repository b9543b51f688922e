import Mathlib

/-!
# SlotTable — tables of named slots with an in-band marker

A table is a list of slots; a slot is free or holds a named entry.  A free slot carries a reserved
name, the *marker*, and a search by name stops at the first slot whose name matches, free or not.  So
an entry that is itself named like the marker can be hidden by a free slot in front of it.  New
entries go to the first free slot.
-/

namespace LfsXv6
namespace Lib

/-- A slot: free, or an entry with a name and a value. -/
abbrev Slot (ν ι : Type) := Option (ν × ι)

namespace SlotTable

variable {ν ι : Type} {l l' l₁ l₂ : List (Slot ν ι)} {x : ν × ι} {n n' : ν} {i i' : ι} {q q' : Nat}

/-- Slot `q` holds the entry `(n, i)`. -/
def Live (l : List (Slot ν ι)) (q : Nat) (n : ν) (i : ι) : Prop := l[q]? = some (some (n, i))

theorem Live.inj {n' : ν} {i' : ι} (h : Live l q n i) (h' : Live l q n' i') : n = n' ∧ i = i' := by
  rw [Live, h, Option.some.injEq, Option.some.injEq, Prod.mk.injEq] at h'
  exact h'

theorem live_cons_zero {sl : Slot ν ι} : Live (sl :: l) 0 n i ↔ sl = some (n, i) := by
  rw [Live, List.getElem?_cons_zero, Option.some.injEq]

theorem live_cons_succ {sl : Slot ν ι} : Live (sl :: l) (q + 1) n i ↔ Live l q n i := by
  rw [Live, Live, List.getElem?_cons_succ]

theorem not_live_replicate {m : Nat} : ¬ Live (List.replicate m (none : Slot ν ι)) q n i := by
  rw [Live, List.getElem?_replicate]
  split <;> simp

theorem live_append_left (h : q < l₁.length) : Live (l₁ ++ l₂) q n i ↔ Live l₁ q n i := by
  rw [Live, Live, List.getElem?_append_left h]

theorem live_append_right (h : l₁.length ≤ q) :
    Live (l₁ ++ l₂) q n i ↔ Live l₂ (q - l₁.length) n i := by
  rw [Live, Live, List.getElem?_append_right h]

theorem Live.lt_length (h : Live l q n i) : q < l.length := (List.getElem?_eq_some_iff.mp h).1

/-- The name a search sees in a slot. -/
def label (marker : ν) : Slot ν ι → ν
  | some (n, _) => n
  | none => marker

/-! ## Insertion -/

/-- Put an entry into the first free slot. -/
def insert (x : ν × ι) : List (Slot ν ι) → Option (List (Slot ν ι))
  | [] => none
  | none :: l => some (some x :: l)
  | some y :: l => (insert x l).map (some y :: ·)

theorem insert_append (x : ν × ι) (l₁ l₂ : List (Slot ν ι)) :
    insert x (l₁ ++ l₂) =
      match insert x l₁ with
      | some l => some (l ++ l₂)
      | none => (insert x l₂).map (l₁ ++ ·) := by
  induction l₁ with
  | nil => simp [insert]
  | cons sl l₁ ih =>
      cases sl with
      | none => simp [insert]
      | some y =>
          simp only [List.cons_append, insert, ih]
          cases insert x l₁ with
          | none => simp [Function.comp_def]
          | some l => simp

/-- Insertion fills the slot behind a prefix without free slots. -/
theorem insert_free (h : none ∉ l₁) :
    insert x (l₁ ++ none :: l₂) = some (l₁ ++ some x :: l₂) := by
  induction l₁ with
  | nil => rfl
  | cons sl l₁ ih =>
      obtain ⟨hsl, hl₁⟩ := not_or.mp (List.mem_cons.not.mp h)
      cases sl with
      | none => exact absurd rfl hsl
      | some y => simp only [List.cons_append, insert, ih hl₁, Option.map_some]

/-- Insertion fills one free slot, and every slot in front of it is taken. -/
theorem insert_eq_set (h : insert x l = some l') :
    ∃ q, l[q]? = some none ∧ (∀ q' < q, l[q']? ≠ some none) ∧ l' = l.set q (some x) := by
  induction l generalizing l' with
  | nil => simp [insert] at h
  | cons sl l ih =>
      cases sl with
      | none =>
          refine ⟨0, by simp, by simp, ?_⟩
          simpa [insert, eq_comm] using h
      | some y =>
          simp only [insert, Option.map_eq_some_iff] at h
          obtain ⟨l'', hl'', rfl⟩ := h
          obtain ⟨q, hq, hbefore, rfl⟩ := ih hl''
          refine ⟨q + 1, by simpa using hq, ?_, by simp⟩
          intro q' hq'
          cases q' with
          | zero => simp
          | succ q' => simpa using hbefore q' (by omega)

/-- Insertion fails exactly when no slot is free. -/
theorem insert_eq_none_iff : insert x l = none ↔ none ∉ l := by
  induction l with
  | nil => simp [insert]
  | cons sl l ih =>
      cases sl with
      | none => simp [insert]
      | some y => simp [insert, ih]

/-- The entries after an insertion: one more, in a slot behind which nothing was free. -/
theorem live_insert (h : insert (n, i) l = some l') :
    ∃ q, (∀ q' < q, ∃ n' i', Live l q' n' i') ∧ (∀ n' i', ¬ Live l q n' i') ∧
      ∀ q' n' i', Live l' q' n' i' ↔ (q' = q ∧ n' = n ∧ i' = i) ∨ Live l q' n' i' := by
  obtain ⟨q, hfree, hbefore, rfl⟩ := insert_eq_set h
  have hlt : q < l.length := (List.getElem?_eq_some_iff.mp hfree).1
  refine ⟨q, ?_, ?_, ?_⟩
  · intro q' hq'
    have hsl : l[q']? = some l[q'] := List.getElem?_eq_getElem (by omega)
    cases hc : l[q'] with
    | none => exact absurd (hc ▸ hsl) (hbefore q' hq')
    | some y => exact ⟨y.1, y.2, by rw [Live, hsl, hc]⟩
  · intro n' i' hlive
    rw [Live, hfree] at hlive
    exact absurd hlive (by simp)
  · intro q' n' i'
    by_cases hq : q' = q
    · subst hq
      rw [Live, Live, List.getElem?_set_self hlt, hfree]
      simp [eq_comm]
    · rw [Live, Live, List.getElem?_set_ne (Ne.symm hq)]
      simp [hq]

/-! ## Search -/

section Search

variable [DecidableEq ν] {marker : ν}

/-- The value of the first slot named `n`; `none` when there is no such slot or it is free. -/
def lookup (marker : ν) (l : List (Slot ν ι)) (n : ν) : Option ι :=
  (l.find? fun sl => label marker sl = n).bind (Option.map Prod.snd)

/-- Free every slot named `n`. -/
def clear (marker : ν) (n : ν) (l : List (Slot ν ι)) : List (Slot ν ι) :=
  l.map fun sl => if label marker sl = n then none else sl

theorem lookup_cons (sl : Slot ν ι) (l : List (Slot ν ι)) :
    lookup marker (sl :: l) n =
      if label marker sl = n then sl.map Prod.snd else lookup marker l n := by
  by_cases h : label marker sl = n <;> simp [lookup, h]

theorem lookup_append (l₁ l₂ : List (Slot ν ι)) :
    lookup marker (l₁ ++ l₂) n =
      match l₁.find? fun sl => label marker sl = n with
      | some sl => sl.map Prod.snd
      | none => lookup marker l₂ n := by
  rw [lookup, List.find?_append]
  cases l₁.find? fun sl => label marker sl = n with
  | none => rfl
  | some sl => rfl

/-- A search for a name that no slot carries fails. -/
theorem lookup_eq_none (h : ∀ sl ∈ l, label marker sl ≠ n) : lookup marker l n = none := by
  have hfind : (l.find? fun sl => label marker sl = n) = none :=
    List.find?_eq_none.mpr fun sl hsl => by simpa using h sl hsl
  rw [lookup, hfind]
  rfl

/-- A search succeeds at the first slot of that name, which must be taken. -/
theorem lookup_eq_some_iff :
    lookup marker l n = some i ↔
      ∃ q, Live l q n i ∧ ∀ q' < q, ∀ sl, l[q']? = some sl → label marker sl ≠ n := by
  induction l with
  | nil => simp [lookup, Live]
  | cons sl l ih =>
      rw [lookup_cons]
      by_cases hsl : label marker sl = n
      · rw [if_pos hsl]
        constructor
        · intro h
          cases sl with
          | none => simp at h
          | some y =>
              refine ⟨0, ?_, by simp⟩
              obtain rfl : y.2 = i := by simpa using h
              obtain rfl : y.1 = n := hsl
              simp [Live]
        · rintro ⟨q, hlive, hbefore⟩
          cases q with
          | zero =>
              obtain rfl : sl = some (n, i) := by simpa [Live] using hlive
              simp
          | succ q => exact absurd hsl (hbefore 0 (by omega) sl (by simp))
      · rw [if_neg hsl, ih]
        constructor
        · rintro ⟨q, hlive, hbefore⟩
          refine ⟨q + 1, by simpa [Live] using hlive, ?_⟩
          intro q' hq' sl' hsl'
          cases q' with
          | zero =>
              obtain rfl : sl = sl' := by simpa using hsl'
              exact hsl
          | succ q' => exact hbefore q' (by omega) sl' (by simpa using hsl')
        · rintro ⟨q, hlive, hbefore⟩
          cases q with
          | zero =>
              obtain rfl : sl = some (n, i) := by simpa [Live] using hlive
              exact absurd rfl hsl
          | succ q =>
              refine ⟨q, by simpa [Live] using hlive, ?_⟩
              intro q' hq' sl' hsl'
              exact hbefore (q' + 1) (by omega) sl' (by simpa using hsl')

/-- An entry is found when no slot in front of it has its name.  In front of an entry named like the
marker no slot may be free. -/
theorem lookup_of_live (h : Live l q n i) (hfirst : ∀ q' < q, ∀ i', ¬ Live l q' n i')
    (hmarker : n = marker → ∀ q' < q, ∃ n' i', Live l q' n' i') : lookup marker l n = some i := by
  refine lookup_eq_some_iff.mpr ⟨q, h, ?_⟩
  intro q' hq' sl hsl hname
  cases sl with
  | none =>
      obtain ⟨n', i', hlive⟩ := hmarker hname.symm q' hq'
      rw [Live, hsl] at hlive
      exact absurd hlive (by simp)
  | some y =>
      obtain rfl : y.1 = n := hname
      exact hfirst q' hq' y.2 hsl

/-- A search that fails: no entry has the name, or it is the marker and a free slot comes first. -/
theorem not_live_of_lookup (h : lookup marker l n = none) (hn : n ≠ marker) : ¬ Live l q n i := by
  intro hlive
  induction l generalizing q with
  | nil => simp [Live] at hlive
  | cons sl l ih =>
      rw [lookup_cons] at h
      by_cases hsl : label marker sl = n
      · rw [if_pos hsl] at h
        cases sl with
        | none => exact hn hsl.symm
        | some y => simp at h
      · rw [if_neg hsl] at h
        cases q with
        | zero =>
            obtain rfl : sl = some (n, i) := by simpa [Live] using hlive
            exact hsl rfl
        | succ q => exact ih h (q := q) (by simpa [Live] using hlive)

theorem live_clear : Live (clear marker n l) q n' i' ↔ Live l q n' i' ∧ n' ≠ n := by
  rw [Live, Live, clear, List.getElem?_map]
  cases hsl : l[q]? with
  | none => simp
  | some sl =>
      by_cases hname : label marker sl = n
      · simp only [Option.map_some, if_pos hname]
        refine ⟨fun hc => by simp at hc, ?_⟩
        rintro ⟨heq, hne⟩
        obtain rfl : sl = some (n', i') := by simpa using heq
        exact absurd hname hne
      · simp only [Option.map_some, if_neg hname]
        refine ⟨fun heq => ⟨heq, ?_⟩, fun heq => heq.1⟩
        obtain rfl : sl = some (n', i') := by simpa using heq
        exact hname

end Search

end SlotTable

end Lib
end LfsXv6
