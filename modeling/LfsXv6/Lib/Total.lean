import Mathlib

/-!
# Total — what a loop accumulates with an associative operation

A loop that combines one value after the other computes the total of the list of values.  The total of
a list in pieces is the total of the totals of the pieces, so a checksum of blocks can be taken from
the checksums of the blocks.
-/

namespace LfsXv6
namespace Lib

section Total

variable {α β : Type} (op : α → α → α) (e : α)

/-- The values of a list, combined from the left. -/
def total (l : List α) : α := l.foldl op e

variable {op e} [Std.Associative op] [Std.LawfulIdentity op e] {l l₁ l₂ : List α} {a : α}

/-- A loop that starts with `a`. -/
theorem foldl_eq_total : l.foldl op a = op a (total op e l) := by
  have hstart : op a e = a := Std.LawfulRightIdentity.right_id a
  calc
    l.foldl op a = l.foldl op (op a e) := by rw [hstart]
    _ = op a (total op e l) := List.foldl_assoc

theorem total_cons : total op e (a :: l) = op a (total op e l) := by
  have hstart : op e a = a := Std.LawfulLeftIdentity.left_id a
  rw [total, List.foldl_cons, hstart, foldl_eq_total (e := e)]

theorem total_append : total op e (l₁ ++ l₂) = op (total op e l₁) (total op e l₂) := by
  rw [total, List.foldl_append, foldl_eq_total (e := e)]
  rfl

/-- Values that change nothing. -/
theorem total_of_forall (h : ∀ x ∈ l, x = e) : total op e l = e := by
  induction l with
  | nil => rfl
  | cons x l ih =>
      have hx := h x List.mem_cons_self
      rw [total_cons, ih fun y hy => h y (List.mem_cons_of_mem _ hy), hx]
      exact Std.LawfulRightIdentity.right_id e

theorem total_flatMap {g : β → List α} {xs : List β} :
    total op e (xs.flatMap g) = total op e (xs.map fun x => total op e (g x)) := by
  induction xs with
  | nil => rfl
  | cons x xs ih => rw [List.flatMap_cons, total_append, ih, List.map_cons, total_cons]

/-- The indices of `n` blocks of `m` values, block after block. -/
theorem range_mul (n m : Nat) (f : Nat → α) :
    (List.range (n * m)).map f =
      (List.range n).flatMap fun b => (List.range m).map fun k => f (b * m + k) := by
  induction n with
  | zero => simp
  | succ n ih =>
      rw [Nat.succ_mul, List.range_add, List.map_append, ih, List.range_succ, List.flatMap_append,
        List.flatMap_singleton, List.map_map]
      rfl

theorem total_blocks (n m : Nat) (f : Nat → α) :
    total op e ((List.range (n * m)).map f) =
      total op e ((List.range n).map fun b => total op e ((List.range m).map fun k => f (b * m + k))) := by
  rw [range_mul, total_flatMap]

end Total

end Lib
end LfsXv6
