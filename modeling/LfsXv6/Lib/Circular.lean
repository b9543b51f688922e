import Mathlib

/-!
# Circular — circular doubly linked lists

The nodes are linked by a `next` and a `prev` pointer each, and a head node stands between the last
node and the first.  Unlinking a node and inserting one behind the head are sequences of pointer
writes; what they do to the list of nodes is proved here once.
-/

namespace LfsXv6
namespace Lib

/-- The pointers of all nodes. -/
structure Links (α : Type) where
  next : α → α
  prev : α → α

namespace Links

variable {α : Type} {k k' : Links α} {a b h z : α} {l l₁ l₂ : List α}

/-- From `a`, the pointers lead through the nodes of `l` to `z`, and back. -/
def Segment (k : Links α) : α → List α → α → Prop
  | a, [], z => k.next a = z ∧ k.prev z = a
  | a, x :: l, z => k.next a = x ∧ k.prev x = a ∧ Segment k x l z

/-- The list of the nodes behind the head `h`. -/
structure Circular (k : Links α) (h : α) (l : List α) : Prop where
  segment : k.Segment h l h
  nodup : (h :: l).Nodup

theorem segment_append : k.Segment a (l₁ ++ b :: l₂) z ↔ k.Segment a l₁ b ∧ k.Segment b l₂ z := by
  induction l₁ generalizing a with
  | nil => simp [Segment, and_assoc]
  | cons x l₁ ih => simp only [List.cons_append, Segment, ih, and_assoc]

theorem Segment.congr (hs : k.Segment a l z) (hnext : ∀ x ∈ a :: l, k'.next x = k.next x)
    (hprev : ∀ x, x ∈ l ∨ x = z → k'.prev x = k.prev x) : k'.Segment a l z := by
  induction l generalizing a with
  | nil =>
      refine ⟨?_, ?_⟩
      · rw [hnext a List.mem_cons_self, hs.1]
      · rw [hprev z (Or.inr rfl), hs.2]
  | cons x l ih =>
      obtain ⟨hn, hp, hs⟩ := hs
      refine ⟨?_, ?_, ih hs (fun y hy => hnext y (List.mem_cons_of_mem _ hy)) ?_⟩
      · rw [hnext a List.mem_cons_self, hn]
      · rw [hprev x (Or.inl List.mem_cons_self), hp]
      · intro y hy
        rcases hy with hy | hy
        · exact hprev y (Or.inl (List.mem_cons_of_mem _ hy))
        · exact hprev y (Or.inr hy)

theorem Segment.prev_mem (hs : k.Segment a l z) : k.prev z ∈ a :: l := by
  induction l generalizing a with
  | nil => simp [hs.2]
  | cons x l ih => exact List.mem_cons_of_mem _ (ih hs.2.2)

theorem Segment.next_mem (hs : k.Segment a l z) : k.next a ∈ l ∨ k.next a = z := by
  cases l with
  | nil => exact Or.inr hs.1
  | cons x l => exact Or.inl (by simp [hs.1])

/-- The list seen from the other end. -/
def swap (k : Links α) : Links α := { next := k.prev, prev := k.next }

theorem Segment.swap (hs : k.Segment a l z) : k.swap.Segment z l.reverse a := by
  induction l generalizing a with
  | nil => exact ⟨hs.2, hs.1⟩
  | cons x l ih =>
      obtain ⟨hn, hp, hs⟩ := hs
      rw [List.reverse_cons]
      exact segment_append.mpr ⟨ih hs, hp, hn⟩

/-! ## Following the pointers -/

section Walk

variable [DecidableEq α]

/-- The nodes that a loop meets from `a` on until it comes to `stop`, within so many turns. -/
def walk (next : α → α) (stop : α) : Nat → α → List α
  | 0, _ => []
  | fuel + 1, a => if a = stop then [] else a :: walk next stop fuel (next a)

theorem Segment.walk {fuel : Nat} (hs : k.Segment a l z) (hz : z ∉ l) (hfuel : l.length ≤ fuel) :
    Links.walk k.next z fuel (k.next a) = l := by
  induction l generalizing a fuel with
  | nil =>
      cases fuel with
      | zero => rfl
      | succ fuel => rw [Links.walk, if_pos hs.1]
  | cons x l ih =>
      obtain ⟨hn, -, hs⟩ := hs
      rw [List.mem_cons, not_or] at hz
      cases fuel with
      | zero => simp at hfuel
      | succ fuel =>
          rw [Links.walk, hn, if_neg (Ne.symm hz.1), ih hs hz.2 (by simpa using hfuel)]

theorem Circular.walk_next {fuel : Nat} (hc : k.Circular h l) (hfuel : l.length ≤ fuel) :
    Links.walk k.next h fuel (k.next h) = l :=
  hc.segment.walk (List.nodup_cons.mp hc.nodup).1 hfuel

theorem Circular.walk_prev {fuel : Nat} (hc : k.Circular h l) (hfuel : l.length ≤ fuel) :
    Links.walk k.prev h fuel (k.prev h) = l.reverse := by
  have hback := hc.segment.swap
  have hnot : h ∉ l.reverse := by
    rw [List.mem_reverse]
    exact (List.nodup_cons.mp hc.nodup).1
  exact hback.walk hnot (by rwa [List.length_reverse])

/-! ## Moving a node -/

/-- `b->next->prev = b->prev; b->prev->next = b->next` -/
def unlink (k : Links α) (b : α) : Links α :=
  let k := { k with prev := Function.update k.prev (k.next b) (k.prev b) }
  { k with next := Function.update k.next (k.prev b) (k.next b) }

/-- `b->next = h->next; b->prev = h; h->next->prev = b; h->next = b` -/
def pushFront (k : Links α) (h b : α) : Links α :=
  let k := { k with next := Function.update k.next b (k.next h) }
  let k := { k with prev := Function.update k.prev b h }
  let k := { k with prev := Function.update k.prev (k.next h) b }
  { k with next := Function.update k.next h b }

theorem unlink_eq (hb : k.next b ≠ b) :
    k.unlink b =
      { next := Function.update k.next (k.prev b) (k.next b)
        prev := Function.update k.prev (k.next b) (k.prev b) } := by
  simp only [unlink, Function.update_of_ne (Ne.symm hb)]

theorem Segment.unlink (hs₁ : k.Segment a l₁ b) (hs₂ : k.Segment b l₂ z)
    (hnodup : (a :: (l₁ ++ b :: l₂)).Nodup) (hz : z ∉ l₁ ++ b :: l₂) :
    (k.unlink b).Segment a (l₁ ++ l₂) z := by
  have hbz : z ≠ b := by
    rintro rfl
    simp at hz
  have hb : k.next b ≠ b := by
    intro heq
    rcases hs₂.next_mem with hmem | hmem
    · rw [heq] at hmem
      have := (List.nodup_cons.mp hnodup).2
      simp [List.nodup_append, hmem] at this
    · exact hbz (hmem.symm.trans heq)
  rw [unlink_eq hb]
  induction l₁ generalizing a with
  | nil =>
      obtain ⟨hna, hpb⟩ := hs₁
      simp only [List.nil_append, List.nodup_cons, List.mem_cons, not_or] at hnodup hz
      cases l₂ with
      | nil =>
          obtain ⟨hnb, hpz⟩ := hs₂
          exact ⟨by simp [hpb, hnb], by simp [hpb, hnb]⟩
      | cons x l₂ =>
          obtain ⟨hnb, hpx, hs₂⟩ := hs₂
          simp only [List.mem_cons, not_or, List.nodup_cons] at hnodup hz
          refine ⟨by simp [hpb, hnb], by simp [hpb, hnb], hs₂.congr ?_ ?_⟩
          · intro y hy
            rw [hpb]
            refine Function.update_of_ne ?_ _ _
            rintro rfl
            rcases List.mem_cons.mp hy with hy | hy
            · exact hnodup.1.2.1 hy
            · exact hnodup.1.2.2 hy
          · intro y hy
            rw [hnb]
            refine Function.update_of_ne ?_ _ _
            rintro rfl
            rcases hy with hy | hy
            · exact hnodup.2.2.1 hy
            · exact hz.2.1 hy.symm
  | cons x l₁ ih =>
      obtain ⟨hna, hpx, hs₁⟩ := hs₁
      rw [List.cons_append, List.nodup_cons] at hnodup
      rw [List.cons_append, List.mem_cons, not_or] at hz
      refine ⟨?_, ?_, ih hs₁ hnodup.2 hz.2⟩
      · refine (Function.update_of_ne ?_ _ _).trans hna
        intro heq
        rw [heq] at hnodup
        have hmem := hs₁.prev_mem
        rcases List.mem_cons.mp hmem with hmem | hmem <;> simp [hmem] at hnodup
      · refine (Function.update_of_ne ?_ _ _).trans hpx
        intro heq
        rcases hs₂.next_mem with hmem | hmem
        · rw [← heq] at hmem
          simp [hmem] at hnodup
        · exact hz.1 (heq.trans hmem).symm

theorem Circular.unlink (hc : k.Circular h (l₁ ++ b :: l₂)) : (k.unlink b).Circular h (l₁ ++ l₂) where
  segment := by
    obtain ⟨hs₁, hs₂⟩ := segment_append.mp hc.segment
    exact hs₁.unlink hs₂ hc.nodup (List.nodup_cons.mp hc.nodup).1
  nodup := by
    refine hc.nodup.sublist ?_
    exact List.Sublist.cons_cons h ((List.Sublist.refl l₁).append (List.sublist_cons_self b l₂))

theorem Circular.pushFront (hc : k.Circular h l) (hb : b ∉ h :: l) :
    (k.pushFront h b).Circular h (b :: l) := by
  rw [List.mem_cons, not_or] at hb
  obtain ⟨hbh, hbl⟩ := hb
  have hk : k.pushFront h b =
      { next := Function.update (Function.update k.next b (k.next h)) h b
        prev := Function.update (Function.update k.prev b h) (k.next h) b } := by
    simp only [Links.pushFront, Function.update_of_ne (Ne.symm hbh)]
  have hnodup : (h :: b :: l).Nodup := by
    have := hc.nodup
    simp only [List.nodup_cons, List.mem_cons, not_or] at this ⊢
    exact ⟨⟨Ne.symm hbh, this.1⟩, hbl, this.2⟩
  refine ⟨?_, hnodup⟩
  have hne : k.next h ≠ b := by
    intro heq
    rcases hc.segment.next_mem with hmem | hmem
    · exact hbl (heq ▸ hmem)
    · exact hbh (heq.symm.trans hmem)
  rw [hk]
  refine ⟨by simp, by simp [Function.update_of_ne (Ne.symm hne)], ?_⟩
  cases l with
  | nil =>
      obtain ⟨hn, hp⟩ := hc.segment
      exact ⟨by simp [Function.update_of_ne hbh, hn], by simp [hn]⟩
  | cons x l =>
      obtain ⟨hn, hp, hs⟩ := hc.segment
      have hc' := hc.nodup
      simp only [List.nodup_cons, List.mem_cons, not_or] at hc' hbl
      refine ⟨by simp [Function.update_of_ne hbh, hn], by simp [hn], hs.congr ?_ ?_⟩
      · intro y hy
        have hyh : y ≠ h := by
          rintro rfl
          rcases List.mem_cons.mp hy with hy | hy
          · exact hc'.1.1 hy
          · exact hc'.1.2 hy
        have hyb : y ≠ b := by
          rintro rfl
          rcases List.mem_cons.mp hy with hy | hy
          · exact hbl.1 hy
          · exact hbl.2 hy
        exact (Function.update_of_ne hyh _ _).trans (Function.update_of_ne hyb _ _)
      · intro y hy
        have hyx : y ≠ x := by
          rintro rfl
          rcases hy with hy | hy
          · exact hc'.2.1 hy
          · exact hc'.1.1 hy.symm
        have hyb : y ≠ b := by
          rintro rfl
          rcases hy with hy | hy
          · exact hbl.2 hy
          · exact hbh hy
        rw [← hn] at hyx
        exact (Function.update_of_ne hyx _ _).trans (Function.update_of_ne hyb _ _)

end Walk

end Links

end Lib
end LfsXv6
