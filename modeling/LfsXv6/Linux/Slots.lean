import LfsXv6.Linux.Search

/-!
# Slots — directory blocks as slot tables

Storing and clearing an entry of a `directory` block, seen through `Directory.slots`, is insertion
into and clearing of a slot table.
-/

namespace LfsXv6
namespace Linux

open Lib

namespace Directory

variable {d : Directory} {e e' : Fin 128} {inum pinum : Int32} {name : Name}

/-! ## Storing one entry -/

theorem setEntry_inums_self : (d.setEntry e inum name).inums e = inum := by
  simp [setEntry]

theorem setEntry_inums_ne (h : e' ≠ e) : (d.setEntry e inum name).inums e' = d.inums e' := by
  simp [setEntry, h]

theorem setEntry_cstr_self : cstr ((d.setEntry e inum name).names e) = name.bytes := by
  simp only [setEntry, Function.update_self]
  exact cstr_strcpy _ _

theorem setEntry_names_ne (h : e' ≠ e) : (d.setEntry e inum name).names e' = d.names e' := by
  simp [setEntry, h]

theorem slot_setEntry_self (h : inum ≠ -1) :
    (d.setEntry e inum name).slot e = some (name.bytes, inum) := by
  rw [slot, setEntry_inums_self, if_neg h, setEntry_cstr_self]

theorem slot_setEntry_ne (h : e' ≠ e) : (d.setEntry e inum name).slot e' = d.slot e' := by
  rw [slot, slot, setEntry_inums_ne h, setEntry_names_ne h]

theorem slot_clearEntry_self : (d.clearEntry e).slot e = none := by
  rw [clearEntry, slot, setEntry_inums_self, if_pos rfl]

theorem SlotOK.setEntry (h : ∀ e, d.SlotOK e) (hi : InRange inum) (e' : Fin 128) :
    (d.setEntry e inum name).SlotOK e' := by
  by_cases he : e' = e
  · subst he
    refine Or.inr ⟨?_, ?_⟩
    · rw [setEntry_inums_self]
      exact hi
    · rw [setEntry_cstr_self]
      exact name.length_le
  · have := h e'
    rwa [SlotOK, setEntry_inums_ne he, setEntry_names_ne he]

theorem SlotOK.clearEntry (h : ∀ e, d.SlotOK e) (e' : Fin 128) : (d.clearEntry e).SlotOK e' := by
  by_cases he : e' = e
  · subst he
    exact Or.inl ⟨setEntry_inums_self, setEntry_cstr_self⟩
  · have := h e'
    rwa [Directory.clearEntry, SlotOK, setEntry_inums_ne he, setEntry_names_ne he]

/-! ## Insertion -/

/-- Storing at the first free entry is insertion, over any run of entries. -/
theorem insert_map_slot (hi : inum ≠ -1) (es : List (Fin 128)) (hnodup : es.Nodup) :
    SlotTable.insert (name.bytes, inum) (es.map d.slot) =
      (es.find? fun e => d.inums e = -1).map fun e => es.map (d.setEntry e inum name).slot := by
  induction es with
  | nil => rfl
  | cons a es ih =>
      obtain ⟨hnot, hnodup⟩ := List.nodup_cons.mp hnodup
      have hmap : ∀ e, e ∉ es → es.map (d.setEntry e inum name).slot = es.map d.slot := by
        intro e he
        refine List.map_congr_left ?_
        intro e' he'
        exact slot_setEntry_ne fun hc => he (hc ▸ he')
      by_cases ha : d.inums a = -1
      · have hslot : d.slot a = none := by rw [slot, if_pos ha]
        simp [hslot, SlotTable.insert, ha, slot_setEntry_self hi, hmap a hnot]
      · obtain ⟨y, hy⟩ : ∃ y, d.slot a = some y := ⟨_, by rw [slot, if_neg ha]⟩
        simp only [List.map_cons, hy, SlotTable.insert, ih hnodup, List.find?_cons, ha, decide_false]
        cases hfind : es.find? fun e => d.inums e = -1 with
        | none => rfl
        | some e =>
            have hne : a ≠ e := fun hc => hnot (hc ▸ List.mem_of_find?_eq_some hfind)
            simp [slot_setEntry_ne hne, hy]

theorem insert_slots (hi : inum ≠ -1) :
    SlotTable.insert (name.bytes, inum) d.slots =
      d.findFree.map fun e => (d.setEntry e inum name).slots := by
  rw [slots, insert_map_slot hi _ (List.nodup_finRange 128), findFree]
  rfl

theorem findFree_eq_some (h : d.findFree = some e) : d.inums e = -1 := by
  rw [findFree] at h
  simpa using List.find?_some h

/-! ## Clearing -/

/-- The directory after the loop of `unlink_server` ran over the entries `js`. -/
def clearNamed (name : Name) (js : List (Fin 128)) (d : Directory) : Directory :=
  js.foldl (fun d j => if cstr (d.names j) = name.bytes then d.clearEntry j else d) d

theorem SlotOK.clearNamed (name : Name) (js : List (Fin 128)) (h : ∀ e, d.SlotOK e) :
    ∀ e, (d.clearNamed name js).SlotOK e := by
  induction js generalizing d with
  | nil => exact h
  | cons j js ih =>
      refine ih ?_
      by_cases hj : cstr (d.names j) = name.bytes
      · simp only [if_pos hj]
        exact SlotOK.clearEntry h
      · simp only [if_neg hj]
        exact h

theorem slot_clearNamed (js : List (Fin 128)) (hnodup : js.Nodup) (h : ∀ e, d.SlotOK e) (e : Fin 128) :
    (d.clearNamed name js).slot e =
      if e ∈ js ∧ SlotTable.label marker (d.slot e) = name.bytes then none else d.slot e := by
  induction js generalizing d with
  | nil => simp [Directory.clearNamed]
  | cons j js ih =>
      obtain ⟨hnot, hnodup⟩ := List.nodup_cons.mp hnodup
      have hstep : d.clearNamed name (j :: js) =
          (if cstr (d.names j) = name.bytes then d.clearEntry j else d).clearNamed name js := rfl
      rw [hstep]
      by_cases hj : cstr (d.names j) = name.bytes
      · rw [if_pos hj, ih hnodup (SlotOK.clearEntry h)]
        by_cases he : e = j
        · subst he
          simp [hnot, slot_clearEntry_self, label_slot (h e), hj]
        · have hslot : (d.clearEntry j).slot e = d.slot e := slot_setEntry_ne he
          simp [hslot, he]
      · rw [if_neg hj, ih hnodup h]
        by_cases he : e = j
        · subst he
          simp [hnot, label_slot (h e), hj]
        · simp [he]

theorem slots_clearNamed (name : Name) (h : ∀ e, d.SlotOK e) :
    (d.clearNamed name (List.finRange 128)).slots = SlotTable.clear marker name.bytes d.slots := by
  rw [slots, slots, SlotTable.clear, List.map_map]
  refine List.map_congr_left ?_
  intro e _
  rw [slot_clearNamed _ (List.nodup_finRange 128) h]
  simp

/-! ## New blocks -/

theorem newDirBlock_false_slotOK (e : Fin 128) : (newDirBlock false inum pinum d).SlotOK e :=
  Or.inl ⟨rfl, cstr_strcpy _ Name.dne⟩

theorem newDirBlock_true_slotOK (hi : InRange inum) (hp : InRange pinum) (e : Fin 128) :
    (newDirBlock true inum pinum d).SlotOK e := by
  have hfree : ∀ e, (newDirBlock false inum pinum d).SlotOK e := newDirBlock_false_slotOK
  exact SlotOK.setEntry (SlotOK.setEntry hfree hi) hp e

theorem newDirBlock_false_findFree : (newDirBlock false inum pinum d).findFree = some 0 := by
  rw [findFree, List.finRange_succ]
  rfl

/-- A block whose entries past the first two are free. -/
theorem slots_of_free (h : ∀ e : Fin 128, 2 ≤ e.val → d.slot e = none) :
    d.slots = d.slot 0 :: d.slot 1 :: List.replicate 126 none := by
  refine List.ext_getElem (by simp) ?_
  intro q hq hq'
  have hq128 : q < 128 := by simpa using hq
  refine Eq.trans (b := d.slot ⟨q, hq128⟩) (by simp [slots]) ?_
  rcases q with _ | _ | q
  · rfl
  · rfl
  · rw [h _ (by simp), List.getElem_cons_succ, List.getElem_cons_succ, List.getElem_replicate]

theorem newDirBlock_slot_free (first : Bool) {e : Fin 128} (he : 2 ≤ e.val) :
    (newDirBlock first inum pinum d).slot e = none := by
  have h0 : e ≠ 0 := fun hc => by simp [hc] at he
  have h1 : e ≠ 1 := fun hc => by simp [hc] at he
  cases first with
  | false => rfl
  | true =>
      have hset : (newDirBlock true inum pinum d).slot e = (newDirBlock false inum pinum d).slot e := by
        refine Eq.trans (slot_setEntry_ne h1) ?_
        exact slot_setEntry_ne h0
      rw [hset]
      rfl

theorem newDirBlock_true_slots (hi : inum ≠ -1) (hp : pinum ≠ -1) :
    (newDirBlock true inum pinum d).slots = newDir inum pinum := by
  have h0 : (newDirBlock true inum pinum d).slot 0 = some (Name.dot.bytes, inum) :=
    (slot_setEntry_ne (by decide)).trans (slot_setEntry_self hi)
  have h1 : (newDirBlock true inum pinum d).slot 1 = some (Name.dotdot.bytes, pinum) :=
    slot_setEntry_self hp
  rw [slots_of_free fun e he => newDirBlock_slot_free true he, h0, h1]
  rfl

/-- The block that extends a directory, once its first entry is stored. -/
theorem newDirBlock_setEntry_slots {i : Int32} (hi : i ≠ -1) :
    ((newDirBlock false inum pinum d).setEntry 0 i name).slots =
      some (name.bytes, i) :: List.replicate 127 none := by
  have hfree : ∀ e : Fin 128, e ≠ 0 →
      ((newDirBlock false inum pinum d).setEntry 0 i name).slot e = none :=
    fun e he => slot_setEntry_ne he
  rw [slots_of_free fun e he => hfree e fun hc => by simp [hc] at he, slot_setEntry_self hi,
    hfree 1 (by decide)]
  rfl

theorem baseBlock_slots : (baseBlock d).slots = newDir 0 0 := by
  have hfree : ∀ e : Fin 128, 2 ≤ e.val → (baseBlock d).slot e = none := by
    intro e he
    exact if_pos (if_neg (by omega))
  have h0 : (baseBlock d).slot 0 = some (Name.dot.bytes, 0) := by
    simp only [slot, baseBlock]
    rw [if_neg (by decide), if_pos trivial, cstr_strcpy]
    rfl
  have h1 : (baseBlock d).slot 1 = some (Name.dotdot.bytes, 0) := by
    simp only [slot, baseBlock]
    rw [if_neg (by decide), if_neg (by decide), if_pos trivial, cstr_strcpy]
    rfl
  rw [slots_of_free hfree, h0, h1]
  rfl

theorem baseBlock_slotOK (e : Fin 128) : (baseBlock d).SlotOK e := by
  by_cases he : e.val < 2
  · refine Or.inr ⟨?_, ?_⟩
    · simp only [baseBlock, if_pos he]
      decide
    · simp only [baseBlock]
      split
      · rw [cstr_strcpy]
        decide
      · split
        · rw [cstr_strcpy]
          decide
        · rw [cstr_strcpy]
          decide
  · have h0 : e ≠ 0 := fun hc => by simp [hc] at he
    have h1 : e ≠ 1 := fun hc => by simp [hc] at he
    refine Or.inl ⟨if_neg he, ?_⟩
    simp only [baseBlock, if_neg h0, if_neg h1]
    exact cstr_strcpy _ Name.dne

end Directory

end Linux
end LfsXv6
