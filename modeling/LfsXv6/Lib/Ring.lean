import Mathlib

/-!
# Ring — a bounded queue in a ring of cells with free-running counters

The two counters run modulo `m` and are reduced modulo the number `n` of cells only when a cell is
used.  As `n` divides `m`, wrapping a counter does not move it in the ring, and as `n < m`, an empty
ring and a full one have different counters.
-/

namespace LfsXv6
namespace Lib

variable {α : Type} {n m head tail : Nat} {cells : Nat → α} {q : List α} {x : α}

/-- The cells between the two counters hold `q`, oldest first. -/
structure Queued (n m : Nat) (cells : Nat → α) (head tail : Nat) (q : List α) : Prop where
  length_le : q.length ≤ n
  tail_eq : tail = (head + q.length) % m
  cell : ∀ i (h : i < q.length), cells ((head + i) % n) = q[i]

namespace Queued

theorem nil (h : head < m) : Queued n m cells head head [] where
  length_le := Nat.zero_le n
  tail_eq := (Nat.mod_eq_of_lt h).symm
  cell i hi := absurd hi (Nat.not_lt_zero i)

/-- Two counters at most `n` cells apart from `head` are equal only at the same distance. -/
private theorem offset_inj {a b : Nat} (ha : a < m) (hb : b < m)
    (h : (head + a) % m = (head + b) % m) : a = b := by
  have hab : a ≡ b [MOD m] := Nat.ModEq.add_left_cancel' head h
  exact Nat.ModEq.eq_of_lt_of_lt hab ha hb

theorem empty_iff (h : Queued n m cells head tail q) (hn : n < m) (hh : head < m) :
    head = tail ↔ q = [] := by
  have hlen := h.length_le
  rw [h.tail_eq]
  constructor
  · intro heq
    have h0 : (head + 0) % m = (head + q.length) % m := by
      rw [← heq, Nat.add_zero, Nat.mod_eq_of_lt hh]
    exact List.eq_nil_of_length_eq_zero (offset_inj (by omega) (by omega) h0).symm
  · rintro rfl
    exact (Nat.mod_eq_of_lt hh).symm

theorem full_iff (h : Queued n m cells head tail q) (hn : n < m) :
    tail = (head + n) % m ↔ q.length = n := by
  have hlen := h.length_le
  rw [h.tail_eq]
  constructor
  · exact offset_inj (by omega) hn
  · intro heq
    rw [heq]

/-- The counters are as far apart as the queue is long. -/
theorem distance (h : Queued n m cells head tail q) (hn : n < m) (hh : head < m) :
    (m - head + tail) % m = q.length := by
  have hlen := h.length_le
  rw [h.tail_eq, Nat.add_mod_mod, ← Nat.add_assoc, Nat.sub_add_cancel (Nat.le_of_lt hh),
    Nat.add_mod_left, Nat.mod_eq_of_lt (by omega)]

theorem push (h : Queued n m cells head tail q) (hdvd : n ∣ m) (hlt : q.length < n) :
    Queued n m (Function.update cells (tail % n) x) head ((tail + 1) % m) (q ++ [x]) where
  length_le := by
    rw [List.length_append, List.length_singleton]
    omega
  tail_eq := by
    rw [h.tail_eq, Nat.mod_add_mod, List.length_append, List.length_singleton, Nat.add_assoc]
  cell i hi := by
    have htail : tail % n = (head + q.length) % n := by
      rw [h.tail_eq, Nat.mod_mod_of_dvd _ hdvd]
    rw [List.length_append, List.length_singleton] at hi
    by_cases hlast : i = q.length
    · subst hlast
      rw [htail, Function.update_self, List.getElem_concat_length rfl]
    · -- an older cell is not the one written, as both are within one turn of the ring
      have hold : (head + i) % n ≠ tail % n := by
        rw [htail]
        intro heq
        exact hlast (offset_inj (by omega) hlt heq)
      rw [Function.update_of_ne hold, h.cell i (by omega), List.getElem_append_left (by omega)]

theorem pop (h : Queued n m cells head tail (x :: q)) (hdvd : n ∣ m) :
    cells (head % n) = x ∧ Queued n m cells ((head + 1) % m) tail q := by
  have hlen := h.length_le
  rw [List.length_cons] at hlen
  refine ⟨h.cell 0 (Nat.succ_pos _), ?_, ?_, ?_⟩
  · omega
  · rw [h.tail_eq, Nat.mod_add_mod, List.length_cons, Nat.add_assoc, Nat.add_comm 1]
  · intro i hi
    have hcell := h.cell (i + 1) (by rw [List.length_cons]; omega)
    have hpos : ((head + 1) % m + i) % n = (head + (i + 1)) % n := by
      rw [← Nat.mod_mod_of_dvd _ hdvd, Nat.mod_add_mod, Nat.mod_mod_of_dvd _ hdvd, Nat.add_assoc,
        Nat.add_comm 1]
    rw [hpos, hcell, List.getElem_cons_succ]

/-- The element that was pushed last is taken back. -/
theorem unpush (h : Queued n m cells head tail (q ++ [x])) (hdvd : n ∣ m) (hm : 0 < m) :
    cells ((m - 1 + tail) % m % n) = x ∧ Queued n m cells head ((m - 1 + tail) % m) q := by
  have hlen := h.length_le
  rw [List.length_append, List.length_singleton] at hlen
  have htail : (m - 1 + tail) % m = (head + q.length) % m := by
    have hsum : m - 1 + (head + (q ++ [x]).length) = head + q.length + m := by
      rw [List.length_append, List.length_singleton]
      omega
    rw [h.tail_eq, Nat.add_mod_mod, hsum, Nat.add_mod_right]
  refine ⟨?_, by omega, htail, ?_⟩
  · rw [htail, Nat.mod_mod_of_dvd _ hdvd, h.cell q.length (by simp), List.getElem_concat_length rfl]
  · intro i hi
    rw [h.cell i (by rw [List.length_append]; omega), List.getElem_append_left hi]

end Queued

end Lib
end LfsXv6
