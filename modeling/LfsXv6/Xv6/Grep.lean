import Mathlib

/-!
# Grep — the pattern matcher of `grep`

Patterns are made of characters, `.` for any character, `*` behind a character for any number of it, `^` at
the beginning and `$` at the end.  The matcher backtracks; what it answers is stated with the language of the
pattern.  Strings are lists of characters, without the zero at their end.
-/

namespace LfsXv6
namespace Xv6
namespace Grep

/-- `'.'` -/
abbrev dot : UInt8 := 0x2e

/-- `'*'` -/
abbrev star : UInt8 := 0x2a

/-- `'^'` -/
abbrev caret : UInt8 := 0x5e

/-- `'$'` -/
abbrev dollar : UInt8 := 0x24

/-! ## The matcher -/

/-- `matchstar`; `here` is `matchhere` for the rest of the pattern. -/
def matchstar (here : List UInt8 → Bool) (c : UInt8) : List UInt8 → Bool
  | [] => here []
  | t :: text => here (t :: text) || ((t == c || c == dot) && matchstar here c text)

/-- `matchhere` -/
def matchhere : List UInt8 → List UInt8 → Bool
  | [], _ => true
  | [c], text =>
      if c = dollar then text.isEmpty
      else
        match text with
        | [] => false
        | t :: _ => c == dot || c == t
  | c :: s :: re, text =>
      if s = star then matchstar (matchhere re) c text
      else
        match text with
        | [] => false
        | t :: text => (c == dot || c == t) && matchhere (s :: re) text

/-- The loop of `match`: try at every place of the text, also at its end. -/
def search (here : List UInt8 → Bool) : List UInt8 → Bool
  | [] => here []
  | t :: text => here (t :: text) || search here text

/-- `match` -/
def matchText (re text : List UInt8) : Bool :=
  match re with
  | [] => search (matchhere []) text
  | c :: re' => if c = caret then matchhere re' text else search (matchhere (c :: re')) text

/-! ## What a pattern means -/

inductive Item where
  | one (c : UInt8)
  | many (c : UInt8)
  deriving DecidableEq, Repr

/-- The character `c` of a pattern stands for the character `t`. -/
def Stands (c t : UInt8) : Prop := c = dot ∨ c = t

/-- The strings of one character that `c` stands for. -/
def letter (c : UInt8) : Language UInt8 := {w | ∃ t, Stands c t ∧ w = [t]}

/-- The language of a pattern that is a list of items. -/
noncomputable def language : List Item → Language UInt8
  | [] => 1
  | .one c :: items => letter c * language items
  | .many c :: items => KStar.kstar (letter c) * language items

/-- The items of a pattern, and whether it must match up to the end of the text. -/
def items : List UInt8 → List Item × Bool
  | [] => ([], false)
  | [c] => if c = dollar then ([], true) else ([.one c], false)
  | c :: s :: re =>
      if s = star then (.many c :: (items re).1, (items re).2)
      else (.one c :: (items (s :: re)).1, (items (s :: re)).2)

section Match

variable {here : List UInt8 → Bool} {c : UInt8} {re text w : List UInt8} {l m : Language UInt8}

theorem stands_iff {t : UInt8} : (c == dot || c == t) = true ↔ Stands c t := by
  simp [Stands]

/-- A word of `letter c * l`. -/
theorem mem_letter_mul : w ∈ letter c * l ↔ ∃ t v, w = t :: v ∧ Stands c t ∧ v ∈ l := by
  rw [Language.mem_mul]
  constructor
  · rintro ⟨_, ⟨t, ht, rfl⟩, v, hv, rfl⟩
    exact ⟨t, v, rfl, ht, hv⟩
  · rintro ⟨t, v, rfl, ht, hv⟩
    exact ⟨[t], ⟨t, ht, rfl⟩, v, hv, rfl⟩

/-- A word of `letter c` repeated is empty, or begins with a character that `c` stands for. -/
theorem mem_kstar_letter : w ∈ KStar.kstar (letter c) ↔
    w = [] ∨ ∃ t v, w = t :: v ∧ Stands c t ∧ v ∈ KStar.kstar (letter c) := by
  conv_lhs => rw [← Language.one_add_self_mul_kstar_eq_kstar]
  rw [Language.mem_add, Language.mem_one, mem_letter_mul]

/-- `matchstar` finds some repetitions behind which the rest of the pattern matches. -/
theorem matchstar_iff : matchstar here c text = true ↔
    ∃ w rest, text = w ++ rest ∧ w ∈ KStar.kstar (letter c) ∧ here rest = true := by
  induction text with
  | nil =>
      constructor
      · intro h
        exact ⟨[], [], rfl, Language.nil_mem_kstar _, h⟩
      · rintro ⟨w, rest, heq, _, h⟩
        obtain ⟨-, rfl⟩ := List.append_eq_nil_iff.mp heq.symm
        exact h
  | cons t text ih =>
      have hstands : (t == c || c == dot) = true ↔ Stands c t := by
        rw [Bool.or_comm, Bool.beq_comm (a := t), stands_iff]
      rw [matchstar, Bool.or_eq_true, Bool.and_eq_true, hstands, ih]
      constructor
      · rintro (h | ⟨ht, w, rest, rfl, hw, h⟩)
        · exact ⟨[], t :: text, rfl, Language.nil_mem_kstar _, h⟩
        · exact ⟨t :: w, rest, rfl, mem_kstar_letter.mpr (Or.inr ⟨t, w, rfl, ht, hw⟩), h⟩
      · rintro ⟨w, rest, heq, hw, h⟩
        rcases mem_kstar_letter.mp hw with rfl | ⟨t', v, rfl, ht, hv⟩
        · exact Or.inl (heq ▸ h)
        · cases heq
          exact Or.inr ⟨ht, v, rest, rfl, hv, h⟩

/-- The pattern `items` matches a prefix of the text, up to its end when `atEnd`. -/
def Prefixes (p : List Item × Bool) (text : List UInt8) : Prop :=
  ∃ w rest, text = w ++ rest ∧ w ∈ language p.1 ∧ (p.2 = true → rest = [])

theorem prefixes_nil {atEnd : Bool} : Prefixes ([], atEnd) text ↔ (atEnd = true → text = []) := by
  constructor
  · rintro ⟨w, rest, rfl, hw, hend⟩ hatEnd
    cases (Language.mem_one w).mp hw
    exact hend hatEnd
  · intro hend
    exact ⟨[], text, rfl, Language.nil_mem_one, hend⟩

theorem not_prefixes_one {atEnd : Bool} {more : List Item} : ¬ Prefixes (.one c :: more, atEnd) [] := by
  rintro ⟨w, rest, heq, hw, -⟩
  obtain ⟨t, v, rfl, -, -⟩ := mem_letter_mul.mp hw
  cases heq

theorem prefixes_one {atEnd : Bool} {more : List Item} {t : UInt8} :
    Prefixes (.one c :: more, atEnd) (t :: text) ↔ Stands c t ∧ Prefixes (more, atEnd) text := by
  constructor
  · rintro ⟨w, rest, heq, hw, hend⟩
    obtain ⟨t', v, rfl, ht, hv⟩ := mem_letter_mul.mp hw
    cases heq
    exact ⟨ht, v, rest, rfl, hv, hend⟩
  · rintro ⟨ht, w, rest, rfl, hw, hend⟩
    exact ⟨t :: w, rest, rfl, mem_letter_mul.mpr ⟨t, w, rfl, ht, hw⟩, hend⟩

theorem prefixes_many {atEnd : Bool} {more : List Item} :
    Prefixes (.many c :: more, atEnd) text ↔
      ∃ w rest, text = w ++ rest ∧ w ∈ KStar.kstar (letter c) ∧ Prefixes (more, atEnd) rest := by
  constructor
  · rintro ⟨w, rest, rfl, hw, hend⟩
    obtain ⟨u, hu, v, hv, rfl⟩ := Language.mem_mul.mp hw
    exact ⟨u, v ++ rest, by simp, hu, v, rest, rfl, hv, hend⟩
  · rintro ⟨u, _, rfl, hu, v, rest, rfl, hv, hend⟩
    exact ⟨u ++ v, rest, by simp, Language.mem_mul.mpr ⟨u, hu, v, hv, rfl⟩, hend⟩

theorem matchhere_star : matchhere (c :: star :: re) text = matchstar (matchhere re) c text := by
  cases text <;> simp [matchhere]

/-- `matchhere` looks for a match that begins with the text. -/
theorem matchhere_iff : matchhere re text = true ↔ Prefixes (items re) text := by
  fun_induction items re generalizing text with
  | case1 => simp [matchhere, prefixes_nil]
  | case2 => simp [matchhere, prefixes_nil]
  | case3 c hc =>
      cases text with
      | nil => simp [matchhere, hc, not_prefixes_one]
      | cons t text => simp [matchhere, hc, Stands, prefixes_one, prefixes_nil]
  | case4 c re ih =>
      rw [matchhere_star, matchstar_iff, prefixes_many]
      simp only [ih]
  | case5 c s re hs ih =>
      cases text with
      | nil => simp [matchhere, hs, not_prefixes_one]
      | cons t text => rw [matchhere, if_neg hs, Bool.and_eq_true, stands_iff, ih, prefixes_one]

/-- The loop of `match` tries every place of the text. -/
theorem search_iff : search here text = true ↔ ∃ pre rest, text = pre ++ rest ∧ here rest = true := by
  induction text with
  | nil =>
      constructor
      · intro h
        exact ⟨[], [], rfl, h⟩
      · rintro ⟨pre, rest, heq, h⟩
        obtain ⟨-, rfl⟩ := List.append_eq_nil_iff.mp heq.symm
        exact h
  | cons t text ih =>
      rw [search, Bool.or_eq_true, ih]
      constructor
      · rintro (h | ⟨pre, rest, rfl, h⟩)
        · exact ⟨[], t :: text, rfl, h⟩
        · exact ⟨t :: pre, rest, rfl, h⟩
      · rintro ⟨_ | ⟨_, pre⟩, rest, heq, h⟩
        · exact Or.inl (heq ▸ h)
        · cases heq
          exact Or.inr ⟨pre, rest, rfl, h⟩

end Match

/-- The items of a whole pattern: whether it must match from the beginning of the text, its items, and
whether it must match up to the end. -/
def pattern : List UInt8 → Bool × List Item × Bool
  | [] => (false, items [])
  | c :: re => if c = caret then (true, items re) else (false, items (c :: re))

/-- `match` answers whether a part of the text, between the beginning and the end where the pattern asks for
them, is a word of the pattern's language: backtracking misses no way to match, and makes up none. -/
theorem match_iff (re text : List UInt8) : matchText re text = true ↔
    ∃ pre w post, text = pre ++ w ++ post ∧ w ∈ language (pattern re).2.1 ∧
      ((pattern re).1 = true → pre = []) ∧ ((pattern re).2.2 = true → post = []) := by
  have hsearch : ∀ re, search (matchhere re) text = true ↔
      ∃ pre w post, text = pre ++ w ++ post ∧ w ∈ language (items re).1 ∧
        ((items re).2 = true → post = []) := by
    intro re
    rw [search_iff]
    constructor
    · rintro ⟨pre, _, rfl, h⟩
      obtain ⟨w, post, rfl, hw, hend⟩ := matchhere_iff.mp h
      exact ⟨pre, w, post, by simp, hw, hend⟩
    · rintro ⟨pre, w, post, rfl, hw, hend⟩
      exact ⟨pre, w ++ post, by simp, matchhere_iff.mpr ⟨w, post, rfl, hw, hend⟩⟩
  cases re with
  | nil => simpa [matchText, pattern] using hsearch []
  | cons c re =>
      by_cases hc : c = caret
      · simp only [matchText, pattern, if_pos hc, matchhere_iff]
        constructor
        · rintro ⟨w, post, rfl, hw, hend⟩
          exact ⟨[], w, post, rfl, hw, fun _ => rfl, hend⟩
        · rintro ⟨pre, w, post, rfl, hw, hbegin, hend⟩
          cases hbegin trivial
          exact ⟨w, post, rfl, hw, hend⟩
      · simpa [matchText, pattern, hc] using hsearch (c :: re)

/-- `a.*b$` in a text that holds two `b`. -/
example : matchText [0x61, 0x2e, 0x2a, 0x62, 0x24] [0x78, 0x61, 0x62, 0x79, 0x62] = true := by decide

end Grep
end Xv6
end LfsXv6
