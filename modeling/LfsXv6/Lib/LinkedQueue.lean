import Mathlib

/-!
# LinkedQueue — singly linked queues

A pointer to the first node, and in each node a pointer to the next.  A node is appended by walking to the
end; the first node is removed by following its pointer.
-/

namespace LfsXv6
namespace Lib

structure LinkedQueue (β : Type) where
  head : Option β
  next : β → Option β

namespace LinkedQueue

variable {β : Type}

/-- From `p`, the pointers lead through the nodes of the list to the end. -/
def Chain (next : β → Option β) : Option β → List β → Prop
  | p, [] => p = none
  | p, b :: l => p = some b ∧ Chain next (next b) l

/-- The queue consists of the nodes of the list. -/
structure Holds (q : LinkedQueue β) (l : List β) : Prop where
  chain : Chain q.next q.head l
  nodup : l.Nodup

/-- The node at which a walk of at most `n` steps ends. -/
def last (next : β → Option β) : Nat → β → β
  | 0, a => a
  | n + 1, a =>
      match next a with
      | none => a
      | some b => last next n b

/-- Remove the first node. -/
def pop (q : LinkedQueue β) : LinkedQueue β :=
  match q.head with
  | none => q
  | some b => { q with head := q.next b }

section

variable [DecidableEq β] {q : LinkedQueue β} {next : β → Option β} {p : Option β} {l : List β} {a b : β}
variable {n : Nat}

/-- Walk to the end, in at most `n` steps, and append a node. -/
def append (q : LinkedQueue β) (n : Nat) (b : β) : LinkedQueue β :=
  let next := Function.update q.next b none
  match q.head with
  | none => { head := some b, next := next }
  | some a => { head := some a, next := Function.update next (last next n a) (some b) }

omit [DecidableEq β] in
theorem Chain.head (h : Chain next p l) : p = l.head? := by
  cases l with
  | nil => exact h
  | cons b l => exact h.1

omit [DecidableEq β] in
theorem Chain.congr {next' : β → Option β} (h : Chain next p l) (heq : ∀ b ∈ l, next' b = next b) :
    Chain next' p l := by
  induction l generalizing p with
  | nil => exact h
  | cons b l ih =>
      refine ⟨h.1, ?_⟩
      rw [heq b List.mem_cons_self]
      exact ih h.2 fun c hc => heq c (List.mem_cons_of_mem _ hc)

omit [DecidableEq β] in
theorem Chain.last_eq (h : Chain next (some a) (a :: l)) (hn : l.length ≤ n) :
    last next n a = (a :: l).getLast (List.cons_ne_nil _ _) := by
  induction l generalizing a n with
  | nil =>
      have hnone : next a = none := h.2
      cases n with
      | zero => rfl
      | succ n =>
          rw [last, hnone]
          rfl
  | cons b l ih =>
      obtain ⟨hnext, hrest⟩ := h.2
      cases n with
      | zero => simp at hn
      | succ n =>
          rw [last, hnext, List.getLast_cons (List.cons_ne_nil _ _)]
          exact ih ⟨rfl, hrest⟩ (by simpa using hn)

/-- The last node is made to point to a node that was in no list. -/
theorem Chain.snoc (h : Chain next p (a :: l)) (hnodup : (a :: l).Nodup) (hb : b ∉ a :: l)
    (hnone : next b = none) :
    Chain (Function.update next ((a :: l).getLast (List.cons_ne_nil _ _)) (some b)) p
      (a :: l ++ [b]) := by
  induction l generalizing a p with
  | nil =>
      have hab : b ≠ a := by simpa using hb
      refine ⟨h.1, ?_, ?_⟩
      · rw [List.getLast_singleton, Function.update_self]
      · rw [List.getLast_singleton, Function.update_of_ne hab]
        exact hnone
  | cons c l ih =>
      refine ⟨h.1, ?_⟩
      have ha : a ≠ (c :: l).getLast (List.cons_ne_nil _ _) := fun hc =>
        (List.nodup_cons.mp hnodup).1 (hc ▸ List.getLast_mem _)
      rw [List.getLast_cons (List.cons_ne_nil _ _), Function.update_of_ne ha]
      exact ih h.2 (List.nodup_cons.mp hnodup).2 (fun hc => hb (List.mem_cons_of_mem _ hc))

theorem Holds.append (h : q.Holds l) (hb : b ∉ l) (hn : l.length ≤ n) :
    (q.append n b).Holds (l ++ [b]) := by
  have hchain : Chain (Function.update q.next b none) q.head l :=
    h.chain.congr fun c hc => Function.update_of_ne (fun hcb : c = b => hb (hcb ▸ hc)) ..
  refine ⟨?_, List.nodup_append.mpr ⟨h.nodup, List.nodup_singleton b, ?_⟩⟩
  · unfold LinkedQueue.append
    cases l with
    | nil =>
        rw [hchain.head]
        exact ⟨rfl, Function.update_self ..⟩
    | cons a l =>
        have hhead : q.head = some a := hchain.1
        rw [hhead] at hchain ⊢
        simp only
        have hlen : l.length ≤ n := by
          have : l.length + 1 ≤ n := hn
          omega
        rw [hchain.last_eq hlen]
        exact hchain.snoc h.nodup hb (Function.update_self ..)
  · intro c hc d hd
    rw [List.mem_singleton.mp hd]
    exact fun hcb => hb (hcb ▸ hc)

omit [DecidableEq β] in
theorem Holds.pop (h : q.Holds (b :: l)) : q.pop.Holds l := by
  have hhead : q.head = some b := h.chain.1
  unfold LinkedQueue.pop
  rw [hhead]
  exact ⟨h.chain.2, (List.nodup_cons.mp h.nodup).2⟩

omit [DecidableEq β] in
theorem Holds.head (h : q.Holds l) : q.head = l.head? := h.chain.head

end

end LinkedQueue

end Lib
end LfsXv6
