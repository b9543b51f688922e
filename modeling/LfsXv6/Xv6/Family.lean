import LfsXv6.Xv6.Proc

/-!
# Family — parents, their children, and `wait`

Every process but `initproc` has a parent that is alive: `fork` makes the caller the parent, and `exit`
passes the children of the process that ends to `initproc`.  A process that sleeps in `wait` has children,
and none of them has ended: `exit` wakes the parent up, and `initproc` when it inherits a zombie, before
`ptable.lock` is released.  So no end of a process goes unnoticed, and each is reported once.

In these runs only `wait` sleeps on the address of a process slot, as in the kernel.
-/

namespace LfsXv6
namespace Xv6

open Lib

namespace Ptable

variable {t t' t'' : Ptable} {i j k p q : Fin nproc} {js : List (Fin nproc)}

/-- A process that has been started and has not ended. -/
def Active (t : Ptable) (i : Fin nproc) : Prop :=
  (t.proc i).state = .sleeping ∨ (t.proc i).state = .runnable ∨ (t.proc i).state = .running

/-- A process that has been started and not yet reaped. -/
def Born (t : Ptable) (i : Fin nproc) : Prop :=
  (t.proc i).state ≠ .unused ∧ (t.proc i).state ≠ .embryo

/-- Process `i` sleeps in `wait`. -/
def Waits (t : Ptable) (i : Fin nproc) : Prop :=
  (t.proc i).state = .sleeping ∧ (t.proc i).chan = some (.proc i)

/-- The parents of `i`, of its parent and so on lead to `initproc`. -/
inductive Descends (t : Ptable) : Fin nproc → Prop where
  | init : Descends t t.initproc
  | child {i p : Fin nproc} : (t.proc i).parent = some p → Descends t p → Descends t i

theorem Active.born (h : t.Active i) : t.Born i := by
  rcases h with h | h | h <;> simp [Born, h]

theorem Active.not_zombie (h : t.Active i) : (t.proc i).state ≠ .zombie := by
  rcases h with h | h | h <;> simp [h]

theorem Born.active (h : t.Born i) (hz : (t.proc i).state ≠ .zombie) : t.Active i := by
  unfold Born Active at *
  cases hs : (t.proc i).state <;> simp_all

/-- Descent is kept where the parents in between stay the same or are replaced by `initproc`. -/
theorem Descends.mono {S : Fin nproc → Prop} (hinit : t'.initproc = t.initproc)
    (hS : ∀ k p, (t.proc k).parent = some p → S p)
    (hkeep : ∀ k p, S k → (t.proc k).parent = some p →
      (t'.proc k).parent = some p ∨ (t'.proc k).parent = some t.initproc)
    (h : t.Descends i) (hi : S i) : t'.Descends i := by
  induction h with
  | init => exact hinit ▸ Descends.init
  | child hp _ ih =>
      rcases hkeep _ _ hi hp with hp' | hp'
      · exact .child hp' (ih (hS _ _ hp))
      · exact .child hp' (hinit ▸ Descends.init)

theorem Descends.parent_ne (h : t.Descends i) (hinit : (t.proc t.initproc).parent = none) :
    (t.proc i).parent ≠ some i := by
  induction h with
  | init => simp [hinit]
  | child hp _ ih =>
      intro hc
      cases hp.symm.trans hc
      exact ih hc

/-! ## The loop of `exit` -/

/-- `t'` comes from `t` when the children of `i` among the slots `js` go to `initproc`, and sleepers are
woken up: `initproc` at least, if one of these children has ended. -/
structure Passed (i : Fin nproc) (js : List (Fin nproc)) (t t' : Ptable) : Prop where
  initproc : t'.initproc = t.initproc
  kept : ∀ k, (t'.proc k).pid = (t.proc k).pid ∧ (t'.proc k).chan = (t.proc k).chan ∧
    (t'.proc k).killed = (t.proc k).killed
  state : ∀ k, (t'.proc k).state = (t.proc k).state ∨
    (t.proc k).state = .sleeping ∧ (t'.proc k).state = .runnable
  parent : ∀ k, (t'.proc k).parent =
    if k ∈ js ∧ (t.proc k).parent = some i then some t.initproc else (t.proc k).parent
  woken : ∀ k ∈ js, (t.proc k).parent = some i → (t.proc k).state = .zombie → ¬ t'.Waits t.initproc

theorem Passed.refl (t : Ptable) (i : Fin nproc) : Passed i [] t t where
  initproc := rfl
  kept _ := ⟨rfl, rfl, rfl⟩
  state _ := Or.inl rfl
  parent _ := by simp
  woken _ h := by simp at h

theorem wakeup1_passed (t : Ptable) (i : Fin nproc) (chan : Chan) : Passed i [] t (t.wakeup1 chan) where
  initproc := rfl
  kept k := by
    simp only [wakeup1]
    split <;> exact ⟨rfl, rfl, rfl⟩
  state k := by
    simp only [wakeup1]
    split
    · rename_i h
      exact Or.inr ⟨h.1, rfl⟩
    · exact Or.inl rfl
  parent k := by
    simp only [wakeup1]
    split <;> simp
  woken _ h := by simp at h

theorem not_waits_wakeup1 (t : Ptable) (i : Fin nproc) : ¬ (t.wakeup1 (.proc i)).Waits i := by
  rintro ⟨hstate, hchan⟩
  simp only [wakeup1] at hstate hchan
  split at hstate
  · cases hstate
  · rename_i h
    rw [if_neg h] at hchan
    exact h ⟨hstate, hchan⟩

/-- Nobody falls asleep. -/
theorem Passed.waits (h : Passed i js t t') (hw : t'.Waits k) : t.Waits k := by
  obtain ⟨hstate, hchan⟩ := hw
  rw [(h.kept k).2.1] at hchan
  rcases h.state k with hs | ⟨_, hs⟩
  · exact ⟨hs ▸ hstate, hchan⟩
  · rw [hs] at hstate
    cases hstate

theorem Passed.trans {js' : List (Fin nproc)} (h : Passed i js t t') (h' : Passed i js' t' t'')
    (hi : i ≠ t.initproc) : Passed i (js ++ js') t t'' where
  initproc := h'.initproc.trans h.initproc
  kept k := ⟨(h'.kept k).1.trans (h.kept k).1, (h'.kept k).2.1.trans (h.kept k).2.1,
    (h'.kept k).2.2.trans (h.kept k).2.2⟩
  state k := by
    rcases h'.state k with hs | ⟨hs, hs'⟩
    · rw [hs]
      exact h.state k
    · rcases h.state k with hs₀ | ⟨hs₀, hs₁⟩
      · exact Or.inr ⟨hs₀ ▸ hs, hs'⟩
      · rw [hs₁] at hs
        cases hs
  parent k := by
    rw [h'.parent k, h.parent k, h.initproc]
    by_cases hk : k ∈ js ∧ (t.proc k).parent = some i
    · -- a child that has been passed on is no child of `i` any more
      simp only [List.mem_append, hk.1, true_or, hk.2, and_self, if_true, Option.some.injEq,
        Ne.symm hi, and_false, if_false]
    · rw [if_neg hk]
      simp only [List.mem_append]
      by_cases hp : (t.proc k).parent = some i
      · have hnot : k ∉ js := fun hmem => hk ⟨hmem, hp⟩
        simp only [hp, hnot, false_or]
      · simp only [hp, and_false]
  woken k hk hp hz := by
    rcases List.mem_append.mp hk with hk | hk
    · exact fun hw => h.woken k hk hp hz (h'.waits hw)
    · by_cases hjs : k ∈ js
      · exact fun hw => h.woken k hjs hp hz (h'.waits hw)
      · have hp' : (t'.proc k).parent = some i := by
          rw [h.parent k, if_neg (fun hc => hjs hc.1), hp]
        have hz' : (t'.proc k).state = .zombie := by
          rcases h.state k with hs | ⟨hs, _⟩
          · rw [hs, hz]
          · rw [hz] at hs
            cases hs
        exact h.initproc ▸ h'.woken k hk hp' hz'

theorem abandon_passed (t : Ptable) (i j : Fin nproc) : Passed i [j] t (abandon i t j) := by
  by_cases hp : (t.proc j).parent = some i
  · have hset : ∀ k, (t.set j { t.proc j with parent := some t.initproc }).proc k =
        { t.proc k with parent := if k = j then some t.initproc else (t.proc k).parent } := by
      intro k
      by_cases hk : k = j
      · subst hk
        rw [set_proc_self, if_pos rfl]
      · rw [set_proc_of_ne hk, if_neg hk]
    have hparent : ∀ k, (if k = j then some t.initproc else (t.proc k).parent) =
        if k ∈ [j] ∧ (t.proc k).parent = some i then some t.initproc else (t.proc k).parent := by
      intro k
      by_cases hk : k = j
      · subst hk
        simp [hp]
      · simp [hk]
    have hpass : (t.set j { t.proc j with parent := some t.initproc }).initproc = t.initproc := rfl
    unfold abandon
    rw [if_pos hp]
    simp only
    split
    · rename_i hz
      have hw := wakeup1_passed (t.set j { t.proc j with parent := some t.initproc }) i (.proc t.initproc)
      refine ⟨hw.initproc, ?_, ?_, ?_, ?_⟩
      · intro k
        have := hw.kept k
        rwa [hset k] at this
      · intro k
        have := hw.state k
        rwa [hset k] at this
      · intro k
        have := hw.parent k
        rw [hset k] at this
        rw [this, if_neg (fun hc => List.not_mem_nil hc.1), hparent k]
      · exact fun _ _ _ _ => not_waits_wakeup1 _ _
    · rename_i hz
      refine ⟨rfl, ?_, ?_, ?_, ?_⟩
      · intro k
        rw [hset k]
        exact ⟨rfl, rfl, rfl⟩
      · intro k
        rw [hset k]
        exact Or.inl rfl
      · intro k
        rw [hset k]
        exact hparent k
      · intro k hk _ hzk
        rw [List.mem_singleton.mp hk] at hzk
        rw [hset j] at hz
        exact absurd hzk hz
  · have hsame : abandon i t j = t := by
      unfold abandon
      rw [if_neg hp]
    rw [hsame]
    refine ⟨rfl, fun _ => ⟨rfl, rfl, rfl⟩, fun _ => Or.inl rfl, ?_, ?_⟩
    · intro k
      by_cases hk : k = j
      · subst hk
        simp [hp]
      · simp [hk]
    · intro k hk hpk
      rw [List.mem_singleton.mp hk] at hpk
      exact absurd hpk hp

theorem foldl_abandon_passed (hi : i ≠ t.initproc) : Passed i js t (js.foldl (abandon i) t) := by
  induction js generalizing t with
  | nil => exact Passed.refl t i
  | cons j js ih =>
      have hj := abandon_passed t i j
      exact hj.trans (ih (by rw [hj.initproc]; exact hi)) hi

/-- What `exit` does: the children go to `initproc`, and the parent is not asleep in `wait`. -/
theorem exit_passed (hi : i ≠ t.initproc) :
    ∃ u, Passed i (List.finRange nproc) t u ∧ t.exit i = u.set i { u.proc i with state := .zombie } ∧
      ∀ p, (t.proc i).parent = some p → ¬ u.Waits p := by
  have hwake : Passed i [] t (t.wakeParent i) ∧
      ∀ p, (t.proc i).parent = some p → ¬ (t.wakeParent i).Waits p := by
    unfold wakeParent
    cases hp : (t.proc i).parent with
    | none => exact ⟨Passed.refl t i, by simp⟩
    | some p =>
        refine ⟨wakeup1_passed t i _, ?_⟩
        rintro _ ⟨⟩
        exact not_waits_wakeup1 t p
  have hloop : Passed i (List.finRange nproc) (t.wakeParent i) ((t.wakeParent i).abandonAll i) :=
    foldl_abandon_passed (by rw [hwake.1.initproc]; exact hi)
  refine ⟨_, hwake.1.trans hloop hi, rfl, ?_⟩
  exact fun p hp hw => hwake.2 p hp (hloop.waits hw)

/-! ## Kinship -/

/-- Process `i` has not been killed, and has children, none of which has ended. -/
def Patient (t : Ptable) (i : Fin nproc) : Prop :=
  (t.proc i).killed = false ∧ (∃ j, (t.proc j).parent = some i) ∧
    ∀ j, (t.proc j).parent = some i → (t.proc j).state ≠ .zombie

/-- What holds of parents and children whenever `ptable.lock` is free. -/
structure Kinship (t : Ptable) : Prop where
  init : t.Active t.initproc
  init_parent : (t.proc t.initproc).parent = none
  /-- Free slots and embryos have no parent yet. -/
  unborn : ∀ i, ¬ t.Born i → (t.proc i).parent = none
  alive : ∀ i p, (t.proc i).parent = some p → t.Active p
  descends : ∀ i, t.Born i → t.Descends i
  waiting : ∀ i, t.Waits i → t.Patient i

/-- `t'` has the same families as `t`, and nobody fell asleep in `wait` who should not. -/
structure Kin (t t' : Ptable) : Prop where
  initproc : t'.initproc = t.initproc
  parent : ∀ i, (t'.proc i).parent = (t.proc i).parent
  state : ∀ i, (t'.proc i).state = (t.proc i).state ∨ t.Active i ∧ t'.Active i ∨
    ¬ t.Born i ∧ ¬ t'.Born i
  waits : ∀ i, t'.Waits i → (t.Waits i ∨ t.Patient i) ∧ (t'.proc i).killed = (t.proc i).killed

theorem Kin.active (h : Kin t t') (i : Fin nproc) : t'.Active i ↔ t.Active i := by
  rcases h.state i with hs | ⟨ha, ha'⟩ | ⟨hb, hb'⟩
  · simp only [Active, hs]
  · exact iff_of_true ha' ha
  · exact iff_of_false (mt Active.born hb') (mt Active.born hb)

theorem Kin.born (h : Kin t t') (i : Fin nproc) : t'.Born i ↔ t.Born i := by
  rcases h.state i with hs | ⟨ha, ha'⟩ | ⟨hb, hb'⟩
  · simp only [Born, hs]
  · exact iff_of_true ha'.born ha.born
  · exact iff_of_false hb' hb

theorem Kin.zombie (h : Kin t t') (i : Fin nproc) :
    (t'.proc i).state = .zombie ↔ (t.proc i).state = .zombie := by
  rcases h.state i with hs | ⟨ha, ha'⟩ | ⟨hb, hb'⟩
  · rw [hs]
  · exact iff_of_false ha'.not_zombie ha.not_zombie
  · exact iff_of_false (fun hz => hb' (by simp [Born, hz])) (fun hz => hb (by simp [Born, hz]))

theorem Kin.descends (h : Kin t t') (hi : t.Descends i) : t'.Descends i :=
  hi.mono (S := fun _ => True) h.initproc (fun _ _ _ => trivial)
    (fun k _ _ hp => Or.inl ((h.parent k).trans hp)) trivial

theorem Kinship.kin (h : Kinship t) (hkin : Kin t t') : Kinship t' where
  init := by
    rw [hkin.initproc]
    exact (hkin.active _).mpr h.init
  init_parent := by rw [hkin.initproc, hkin.parent, h.init_parent]
  unborn i hi := by
    rw [hkin.parent]
    exact h.unborn i (mt (hkin.born i).mpr hi)
  alive i p hp := (hkin.active p).mpr (h.alive i p (hkin.parent i ▸ hp))
  descends i hi := hkin.descends (h.descends i ((hkin.born i).mp hi))
  waiting i hi := by
    obtain ⟨hw, hk⟩ := hkin.waits i hi
    obtain ⟨hkilled, ⟨j, hj⟩, hz⟩ := hw.elim (h.waiting i) id
    refine ⟨hk.trans hkilled, ⟨j, (hkin.parent j).trans hj⟩, ?_⟩
    intro j hj
    exact mt (hkin.zombie j).mp (hz j (hkin.parent j ▸ hj))

/-- One slot changes within its family. -/
theorem Kin.set {x : Proc} (hparent : x.parent = (t.proc i).parent)
    (hstate : x.state = (t.proc i).state ∨
      t.Active i ∧ (x.state = .sleeping ∨ x.state = .runnable ∨ x.state = .running) ∨
      ¬ t.Born i ∧ (x.state = .unused ∨ x.state = .embryo))
    (hwaits : x.state = .sleeping → x.chan = some (.proc i) →
      (t.Waits i ∨ t.Patient i) ∧ x.killed = (t.proc i).killed) :
    Kin t (t.set i x) where
  initproc := rfl
  parent j := by
    by_cases hj : j = i
    · subst hj
      rw [set_proc_self, hparent]
    · rw [set_proc_of_ne hj]
  state j := by
    by_cases hj : j = i
    · subst hj
      simp only [Active, Born, set_proc_self]
      rcases hstate with hs | hs | ⟨hb, hs⟩
      · exact Or.inl hs
      · exact Or.inr (Or.inl hs)
      · refine Or.inr (Or.inr ⟨hb, ?_⟩)
        rcases hs with hs | hs <;> simp [hs]
    · exact Or.inl (by rw [set_proc_of_ne hj])
  waits j hj := by
    by_cases hji : j = i
    · subst hji
      simp only [Waits, set_proc_self] at hj ⊢
      exact hwaits hj.1 hj.2
    · simp only [Waits, set_proc_of_ne hji] at hj ⊢
      exact ⟨Or.inl hj, trivial⟩

/-- Sleepers are woken up. -/
theorem Passed.kin (h : Passed i [] t t') : Kin t t' where
  initproc := h.initproc
  parent k := by simpa using h.parent k
  state k := by
    rcases h.state k with hs | ⟨hs, hs'⟩
    · exact Or.inl hs
    · exact Or.inr (Or.inl ⟨Or.inl hs, Or.inr (Or.inl hs')⟩)
  waits k hk := ⟨Or.inl (h.waits hk), (h.kept k).2.2⟩

/-- A child is born. -/
theorem Kinship.forked (h : Kinship t) (hi : t.Active i) (hj : ¬ t.Born j) : Kinship (t.forked i j) := by
  have hji : j ≠ i := fun hc => hj (hc ▸ hi.born)
  have hinit : t.initproc ≠ j := fun hc => hj (hc ▸ h.init.born)
  have hother : ∀ k, k ≠ j → (t.forked i j).proc k = t.proc k := fun k hk => set_proc_of_ne hk
  have hself : (t.forked i j).proc j = { t.proc j with parent := some i, state := .runnable } :=
    set_proc_self
  have hsame : (t.forked i j).initproc = t.initproc := rfl
  have hactive : ∀ k, t.Active k → (t.forked i j).Active k := by
    intro k hk
    simpa only [Active, hother k fun hc => hj (hc ▸ hk.born)] using hk
  have hdesc : ∀ k, t.Born k → (t.forked i j).Descends k := by
    intro k hk
    refine (h.descends k hk).mono (S := fun k => k ≠ j) hsame ?_ ?_ fun hc => hj (hc ▸ hk)
    · exact fun k p hp hc => hj (hc ▸ (h.alive k p hp).born)
    · exact fun k p hk hp => Or.inl (by rw [hother k hk, hp])
  constructor
  · exact hactive _ h.init
  · show ((t.forked i j).proc t.initproc).parent = none
    rw [hother _ hinit, h.init_parent]
  · intro k hk
    by_cases hkj : k = j
    · subst hkj
      exact absurd (by simp [Born, hself]) hk
    · simp only [Born, hother k hkj] at hk ⊢
      exact h.unborn k hk
  · intro k p hp
    by_cases hkj : k = j
    · subst hkj
      rw [hself] at hp
      cases hp
      exact hactive i hi
    · rw [hother k hkj] at hp
      exact hactive p (h.alive k p hp)
  · intro k hk
    by_cases hkj : k = j
    · subst hkj
      exact .child (by rw [hself]) (hdesc i hi.born)
    · simp only [Born, hother k hkj] at hk
      exact hdesc k hk
  · intro k hk
    have hkj : k ≠ j := by
      rintro rfl
      simp [Waits, hself] at hk
    simp only [Waits, hother k hkj] at hk ⊢
    obtain ⟨hkilled, ⟨l, hl⟩, hz⟩ := h.waiting k hk
    have hlj : l ≠ j := fun hc => by
      rw [hc, h.unborn j hj] at hl
      cases hl
    refine ⟨by rw [hother k hkj, hkilled], ⟨l, by rw [hother l hlj, hl]⟩, ?_⟩
    intro m hm
    by_cases hmj : m = j
    · simp [hmj, hself]
    · rw [hother m hmj] at hm ⊢
      exact hz m hm

/-- A process ends. -/
theorem Kinship.exit (h : Kinship t) (hi : t.Active i) (hne : i ≠ t.initproc) (hw : ¬ t.Waits i) :
    Kinship (t.exit i) := by
  obtain ⟨u, hu, hexit, hawake⟩ := exit_passed hne
  have hparent : ∀ k, (u.proc k).parent =
      if (t.proc k).parent = some i then some t.initproc else (t.proc k).parent := by
    intro k
    simpa using hu.parent k
  have hactive : ∀ k, t.Active k → u.Active k := by
    intro k hk
    rcases hu.state k with hs | ⟨_, hs⟩
    · simpa only [Active, hs] using hk
    · exact Or.inr (Or.inl hs)
  have hother : ∀ k, k ≠ i → (t.exit i).proc k = u.proc k := fun k hk => by
    rw [hexit, set_proc_of_ne hk]
  have hself : (t.exit i).proc i = { u.proc i with state := .zombie } := by rw [hexit, set_proc_self]
  have hexitparent : ∀ k, ((t.exit i).proc k).parent = (u.proc k).parent := by
    intro k
    by_cases hk : k = i
    · subst hk
      rw [hself]
    · rw [hother k hk]
  have hinit : (t.exit i).initproc = t.initproc := by
    rw [hexit]
    exact hu.initproc
  have hborn : ∀ k, (t.exit i).Born k → t.Born k := by
    intro k hk
    by_cases hki : k = i
    · exact hki ▸ hi.born
    · simp only [Born, hother k hki] at hk
      rcases hu.state k with hs | ⟨hs, _⟩
      · simpa only [Born, hs] using hk
      · simp [Born, hs]
  have hborn' : ∀ k, t.Born k → (t.exit i).Born k := by
    intro k hk
    by_cases hki : k = i
    · subst hki
      simp [Born, hself]
    · simp only [Born, hother k hki]
      rcases hu.state k with hs | ⟨_, hs⟩
      · simpa only [Born, hs] using hk
      · simp [hs]
  constructor
  · rw [hinit]
    simp only [Active, hother _ (Ne.symm hne)]
    exact hactive _ h.init
  · rw [hinit, hexitparent, hparent, h.init_parent]
    simp
  · intro k hk
    have hnone := h.unborn k (mt (hborn' k) hk)
    rw [hexitparent, hparent, hnone]
    simp
  · intro k p hp
    rw [hexitparent, hparent] at hp
    split at hp
    · cases hp
      simp only [Active, hother _ (Ne.symm hne)]
      exact hactive _ h.init
    · rename_i hki
      have hpi : p ≠ i := fun hc => hki (hc ▸ hp)
      simp only [Active, hother p hpi]
      exact hactive p (h.alive k p hp)
  · intro k hk
    refine (h.descends k (hborn k hk)).mono (S := fun _ => True) hinit (fun _ _ _ => trivial) ?_ trivial
    intro l p _ hp
    rw [hexitparent, hparent]
    split
    · exact Or.inr rfl
    · exact Or.inl hp
  · intro k hk
    have hki : k ≠ i := by
      rintro rfl
      simp [Waits, hself] at hk
    have hku : u.Waits k := by simpa only [Waits, hother k hki] using hk
    obtain ⟨hkilled, ⟨j, hj⟩, hz⟩ := h.waiting k (hu.waits hku)
    refine ⟨?_, ⟨j, ?_⟩, ?_⟩
    · rw [hother k hki, (hu.kept k).2.2, hkilled]
    · rw [hexitparent, hparent, if_neg (fun hc => hki (Option.some.inj (hj.symm.trans hc))), hj]
    · intro j hj hzombie
      rw [hexitparent, hparent] at hj
      by_cases hji : j = i
      · -- the process that ended is a child of `k`: then `k` has been woken up
        subst hji
        rw [if_neg ((h.descends j hi.born).parent_ne h.init_parent)] at hj
        exact hawake k hj hku
      · have hzj : (t.proc j).state = .zombie := by
          rw [hother j hji] at hzombie
          rcases hu.state j with hs | ⟨_, hs⟩
          · rw [← hs, hzombie]
          · rw [hs] at hzombie
            cases hzombie
        split at hj
        · rename_i hpj
          cases hj
          exact hu.woken j (List.mem_finRange j) hpj hzj hku
        · exact hz j hj hzj

/-- A zombie is reaped by its parent. -/
theorem Kinship.reaped (h : Kinship t) (hj : (t.proc j).parent = some i)
    (hz : (t.proc j).state = .zombie) (hi : ¬ t.Waits i) : Kinship (t.set j (Ptable.reaped (t.proc j))) := by
  have hdead : ¬ t.Active j := fun ha => ha.not_zombie hz
  have hother : ∀ k, k ≠ j → (t.set j (Ptable.reaped (t.proc j))).proc k = t.proc k :=
    fun k hk => set_proc_of_ne hk
  have hself : (t.set j (Ptable.reaped (t.proc j))).proc j = Ptable.reaped (t.proc j) := set_proc_self
  have hsame : (t.set j (Ptable.reaped (t.proc j))).initproc = t.initproc := rfl
  have hactive : ∀ k, t.Active k → (t.set j (Ptable.reaped (t.proc j))).Active k := by
    intro k hk
    simpa only [Active, hother k fun hc => hdead (hc ▸ hk)] using hk
  constructor
  · exact hactive _ h.init
  · show ((t.set j _).proc t.initproc).parent = none
    rw [hother _ fun hc => hdead (hc ▸ h.init), h.init_parent]
  · intro k hk
    by_cases hkj : k = j
    · subst hkj
      rw [hself]
      rfl
    · simp only [Born, hother k hkj] at hk ⊢
      exact h.unborn k hk
  · intro k p hp
    by_cases hkj : k = j
    · subst hkj
      rw [hself] at hp
      cases hp
    · rw [hother k hkj] at hp
      exact hactive p (h.alive k p hp)
  · intro k hk
    have hkj : k ≠ j := by
      rintro rfl
      simp [Born, Ptable.reaped] at hk
    simp only [Born, hother k hkj] at hk
    refine (h.descends k hk).mono (S := fun k => k ≠ j) hsame ?_ ?_ hkj
    · exact fun k p hp hc => hdead (hc ▸ h.alive k p hp)
    · exact fun k p hk hp => Or.inl (by rw [hother k hk, hp])
  · intro k hk
    have hkj : k ≠ j := by
      rintro rfl
      simp [Waits, Ptable.reaped] at hk
    simp only [Waits, hother k hkj] at hk ⊢
    have hki : k ≠ i := fun hc => hi (hc ▸ hk)
    obtain ⟨hkilled, ⟨l, hl⟩, hzs⟩ := h.waiting k hk
    have hlj : l ≠ j := fun hc => by
      rw [hc, hj] at hl
      exact hki (Option.some.inj hl).symm
    refine ⟨by rw [hother k hkj, hkilled], ⟨l, by rw [hother l hlj, hl]⟩, ?_⟩
    intro m hm
    by_cases hmj : m = j
    · rw [hmj, hself] at hm
      cases hm
    · rw [hother m hmj] at hm ⊢
      exact hzs m hm

theorem exit_state (hne : i ≠ t.initproc) (hk : k ≠ i) :
    ((t.exit i).proc k).state = (t.proc k).state ∨
      (t.proc k).state = .sleeping ∧ ((t.exit i).proc k).state = .runnable := by
  obtain ⟨u, hu, hexit, _⟩ := exit_passed hne
  rw [hexit, set_proc_of_ne hk]
  exact hu.state k

end Ptable

namespace ProcRun

open Ptable

variable {s : ProcRun} {t : Ptable} {st : ProcStep} {sts : List ProcStep} {i j k : Fin nproc}

/-- Only `wait` sleeps on the address of a process slot. -/
def Ordinary : ProcStep → Prop
  | .sleep _ (.proc _) => False
  | _ => True

structure Family (s : ProcRun) : Prop where
  kinship : Kinship s.table
  forking : ∀ i j, s.np i = some j → s.table.Active i ∧ (s.table.proc j).state = .embryo
  apart : ∀ i k j, s.np i = some j → s.np k = some j → i = k

namespace Family

theorem booted : Family booted where
  kinship := by
    have hproc : ∀ i, (ProcRun.booted.table.proc i) =
        if i = 0 then ⟨.runnable, 1, none, none, false⟩ else ⟨.unused, 0, none, none, false⟩ := fun _ => rfl
    have hinit : ProcRun.booted.table.initproc = 0 := rfl
    have hnone : ∀ i, (ProcRun.booted.table.proc i).parent = none := by
      intro i
      rw [hproc]
      split <;> rfl
    constructor
    · simp [Active, hproc, hinit]
    · exact hnone _
    · exact fun i _ => hnone i
    · intro i p hp
      rw [hnone] at hp
      cases hp
    · intro i hi
      by_cases h0 : i = 0
      · exact h0 ▸ hinit ▸ Descends.init
      · simp [Ptable.Born, hproc, h0] at hi
    · intro i hi
      simp only [Waits, hproc] at hi
      split at hi <;> simp at hi
  forking i j h := by cases h
  apart i k j h := by cases h

theorem kin (h : Family s) (hkin : Kin s.table t)
    (hembryo : ∀ j, (s.table.proc j).state = .embryo → (t.proc j).state = .embryo) :
    Family { s with table := t } where
  kinship := h.kinship.kin hkin
  forking i j hj := ⟨(hkin.active i).mpr (h.forking i j hj).1, hembryo j (h.forking i j hj).2⟩
  apart := h.apart

theorem set (h : Family s) {x : Proc} (hparent : x.parent = (s.table.proc i).parent)
    (hactive : s.table.Active i) (hstate : x.state = .sleeping ∨ x.state = .runnable ∨ x.state = .running)
    (hwaits : x.state = .sleeping → x.chan = some (.proc i) →
      s.table.Patient i ∧ x.killed = (s.table.proc i).killed) :
    Family { s with table := s.table.set i x } := by
  refine h.kin (Kin.set hparent (Or.inr (Or.inl ⟨hactive, hstate⟩)) fun hs hc =>
    (hwaits hs hc).imp_left Or.inr) ?_
  intro j hj
  have hji : j ≠ i := by
    rintro rfl
    rcases hactive with ha | ha | ha <;> rw [hj] at ha <;> cases ha
  rw [set_proc_of_ne hji, hj]

/-- The beginning of a `fork`, which takes the slot `j`. -/
theorem enter (h : Family s) (hi : s.table.Active i) (hj : (s.table.proc j).state = .unused)
    (hkin : Kin s.table t) (hembryo : (t.proc j).state = .embryo)
    (hother : ∀ k, k ≠ j → t.proc k = s.table.proc k) (named : Fin nproc → Bool) :
    Family ⟨t, Function.update s.np i (some j), named⟩ := by
  -- the slot was free, so no other `fork` is working on it
  have hnew : ∀ k, s.np k ≠ some j := by
    intro k hk
    have := (h.forking k j hk).2
    rw [hj] at this
    cases this
  refine ⟨h.kinship.kin hkin, ?_, ?_⟩
  · intro k l (hkl : Function.update s.np i (some j) k = some l)
    by_cases hki : k = i
    · subst hki
      rw [Function.update_self] at hkl
      cases hkl
      exact ⟨(hkin.active k).mpr hi, hembryo⟩
    · rw [Function.update_of_ne hki] at hkl
      obtain ⟨hactive, hl⟩ := h.forking k l hkl
      have hlj : l ≠ j := fun hc => hnew k (hc ▸ hkl)
      exact ⟨(hkin.active k).mpr hactive, (congrArg Proc.state (hother l hlj)).trans hl⟩
  · intro k k' l (hk : Function.update s.np i (some j) k = some l)
      (hk' : Function.update s.np i (some j) k' = some l)
    by_cases hki : k = i
    · by_cases hki' : k' = i
      · rw [hki, hki']
      · rw [Function.update_of_ne hki'] at hk'
        rw [hki, Function.update_self] at hk
        cases hk
        exact absurd hk' (hnew k')
    · rw [Function.update_of_ne hki] at hk
      by_cases hki' : k' = i
      · rw [hki', Function.update_self] at hk'
        cases hk'
        exact absurd hk (hnew k)
      · rw [Function.update_of_ne hki'] at hk'
        exact h.apart k k' l hk hk'

theorem fork (h : Family s) (hi : s.Idle i) : Family (s.step (.fork i)) := by
  simp only [step]
  cases ha : s.table.allocproc with
  | none => exact h
  | some r =>
      obtain ⟨j, t⟩ := r
      obtain ⟨hfree, rfl⟩ := allocproc_eq_some ha
      have hunused : (s.table.proc j).state = .unused := not_not.mp hfree
      have hkin : Kin s.table
          (s.table.set j { s.table.proc j with state := .embryo, pid := s.table.nextpid }) :=
        Kin.set rfl (Or.inr (Or.inr ⟨by simp [Ptable.Born, hunused], Or.inr rfl⟩)) (by simp)
      have hkin' : Kin s.table { s.table.set j { s.table.proc j with state := .embryo, pid := s.table.nextpid }
          with nextpid := s.table.nextpid + 1 } := ⟨hkin.initproc, hkin.parent, hkin.state, hkin.waits⟩
      exact h.enter (Or.inr (Or.inr hi.1)) hunused hkin'
        (congrArg Proc.state set_proc_self) (fun k hk => set_proc_of_ne hk) _

/-- The end of a `fork`, which leaves the slot `j`. -/
theorem leave (h : Family s) (hj : s.np i = some j) {x : Proc}
    (hkin : Kinship (s.table.set j x)) (hactive : ∀ k, k ≠ j → s.table.Active k → (s.table.set j x).Active k) :
    Family { s with table := s.table.set j x, np := Function.update s.np i none } := by
  refine ⟨hkin, ?_, ?_⟩
  · intro k l (hkl : Function.update s.np i none k = some l)
    by_cases hki : k = i
    · rw [hki, Function.update_self] at hkl
      cases hkl
    · rw [Function.update_of_ne hki] at hkl
      have hlj : l ≠ j := fun hc => hki (h.apart k i j (hc ▸ hkl) hj)
      have hkj : k ≠ j := by
        rintro rfl
        have hemb := (h.forking i k hj).2
        rcases (h.forking k l hkl).1 with ha | ha | ha <;> rw [hemb] at ha <;> cases ha
      refine ⟨hactive k hkj (h.forking k l hkl).1, ?_⟩
      exact (congrArg Proc.state (set_proc_of_ne hlj)).trans (h.forking k l hkl).2
  · intro k k' l (hk : Function.update s.np i none k = some l)
      (hk' : Function.update s.np i none k' = some l)
    by_cases hki : k = i
    · rw [hki, Function.update_self] at hk
      cases hk
    · by_cases hki' : k' = i
      · rw [hki', Function.update_self] at hk'
        cases hk'
      · rw [Function.update_of_ne hki] at hk
        rw [Function.update_of_ne hki'] at hk'
        exact h.apart k k' l hk hk'

theorem exit (h : Family s) (hi : s.Idle i) (hne : i ≠ s.table.initproc) : Family (s.step (.exit i)) := by
  have hnot : ¬ s.table.Waits i := by
    intro hw
    have := hw.1
    rw [hi.1] at this
    cases this
  refine ⟨h.kinship.exit (Or.inr (Or.inr hi.1)) hne hnot, ?_, h.apart⟩
  intro k l (hkl : s.np k = some l)
  have hki : k ≠ i := by
    rintro rfl
    rw [hi.2] at hkl
    cases hkl
  have hli : l ≠ i := by
    rintro rfl
    have := (h.forking k l hkl).2
    rw [hi.1] at this
    cases this
  obtain ⟨hactive, hembryo⟩ := h.forking k l hkl
  constructor
  · rcases exit_state hne hki with hs | ⟨_, hs⟩
    · simpa only [Active, step, hs] using hactive
    · exact Or.inr (Or.inl hs)
  · rcases exit_state hne hli with hs | ⟨hs, _⟩
    · exact hs.trans hembryo
    · rw [hembryo] at hs
      cases hs

theorem wait (h : Family s) (hi : s.Idle i) : Family (s.step (.wait i)) := by
  simp only [step]
  unfold Ptable.wait
  cases hf : s.table.find fun p => p.parent = some i ∧ p.state = .zombie with
  | some j =>
      obtain ⟨hparent, hz⟩ : (s.table.proc j).parent = some i ∧ (s.table.proc j).state = .zombie := by
        simpa using find_eq_some hf
      have hnot : ¬ s.table.Waits i := by
        intro hw
        have := hw.1
        rw [hi.1] at this
        cases this
      refine ⟨h.kinship.reaped hparent hz hnot, ?_, h.apart⟩
      intro k l hkl
      obtain ⟨hactive, hembryo⟩ := h.forking k l hkl
      have hkj : k ≠ j := fun hc => hactive.not_zombie (hc ▸ hz)
      have hlj : l ≠ j := by
        rintro rfl
        rw [hz] at hembryo
        cases hembryo
      simp only [Active, set_proc_of_ne hkj, set_proc_of_ne hlj]
      exact ⟨hactive, hembryo⟩
  | none =>
      simp only
      split
      · exact h
      · rename_i hkids
        obtain ⟨hkids, hkilled⟩ := not_or.mp hkids
        refine h.set rfl (Or.inr (Or.inr hi.1)) (Or.inl rfl) fun _ _ => ⟨⟨by simpa using hkilled, ?_, ?_⟩, rfl⟩
        · obtain ⟨j, hj⟩ := Option.ne_none_iff_exists'.mp hkids
          exact ⟨j, by simpa using find_eq_some hj⟩
        · intro j hj hz
          have := find_eq_none hf j
          simp [hj, hz] at this

theorem kill (h : Family s) (pid : Int32) : Family (s.step (.kill pid)) := by
  simp only [step]
  unfold Ptable.kill
  cases hf : s.table.find fun p => p.pid = pid with
  | none => exact ⟨h.kinship, h.forking, h.apart⟩
  | some j =>
      have hkin : Kin s.table (s.table.set j { s.table.proc j with
          killed := true
          state := if (s.table.proc j).state = .sleeping then .runnable else (s.table.proc j).state }) := by
        by_cases hs : (s.table.proc j).state = .sleeping
        · exact Kin.set rfl (Or.inr (Or.inl ⟨Or.inl hs, Or.inr (Or.inl (if_pos hs))⟩)) (by simp [hs])
        · exact Kin.set rfl (Or.inl (if_neg hs)) (by simp [hs])
      have hkill := h.kin hkin fun k hk => by
        by_cases hkj : k = j
        · subst hkj
          simp [hk]
        · rw [set_proc_of_ne hkj, hk]
      exact ⟨hkill.kinship, hkill.forking, hkill.apart⟩

theorem step (h : Family s) (hok : s.Admits st) (hord : Ordinary st) : Family (s.step st) := by
  cases st with
  | fork i => exact h.fork hok
  | outOfMemory i =>
      cases hnp : s.np i with
      | none => simpa only [ProcRun.step, hnp] using h
      | some j =>
          simp only [ProcRun.step, hnp]
          have hembryo := (h.forking i j hnp).2
          have hkin : Kin s.table (s.table.giveUp j) :=
            Kin.set rfl (Or.inr (Or.inr ⟨by simp [Ptable.Born, hembryo], Or.inl rfl⟩)) (by simp)
          exact h.leave hnp (h.kinship.kin hkin) fun k _ hk => (hkin.active k).mpr hk
  | forked i =>
      cases hnp : s.np i with
      | none => simpa only [ProcRun.step, hnp] using h
      | some j =>
          simp only [ProcRun.step, hnp]
          obtain ⟨hactive, hembryo⟩ := h.forking i j hnp
          refine h.leave hnp (h.kinship.forked hactive (by simp [Ptable.Born, hembryo])) ?_
          intro k hkj hk
          simpa only [Active, set_proc_of_ne hkj] using hk
  | exit i => exact h.exit hok.1 hok.2
  | wait i => exact h.wait hok
  | kill pid => exact h.kill pid
  | run i => exact h.set rfl (Or.inr (Or.inl hok)) (Or.inr (Or.inr rfl)) (by simp)
  | yield i => exact h.set rfl (Or.inr (Or.inr hok)) (Or.inr (Or.inl rfl)) (by simp)
  | sleep i chan =>
      refine h.set rfl (Or.inr (Or.inr hok)) (Or.inl rfl) ?_
      rintro _ ⟨⟩
      exact hord.elim
  | wakeup chan =>
      refine h.kin (wakeup1_passed s.table 0 chan).kin fun j hj => ?_
      rcases (wakeup1_passed s.table 0 chan).state j with hs | ⟨hs, _⟩
      · rw [hs, hj]
      · rw [hj] at hs
        cases hs

end Family

/-- **Families.**  Whatever the processes do, every process descends from `initproc`, every parent is alive,
and a process that sleeps in `wait` has not been killed and has children, none of which has ended. -/
theorem kinship_of_run (h : Run step (fun s st => s.Admits st ∧ Ordinary st) booted sts s) :
    Kinship s.table :=
  (h.invariant (fun _ _ hs hok => hs.step hok.1 hok.2) Family.booted).kinship

end ProcRun

/-! ## Ends and reports -/

namespace Ptable

variable {t t' : Ptable} {i j : Fin nproc} {x : Proc}

/-- The pids of the processes that have ended and have not been reaped. -/
def zombies (t : Ptable) : Multiset Int32 :=
  (Finset.univ.filter fun i => (t.proc i).state = .zombie).val.map fun i => (t.proc i).pid

theorem zombies_congr (h : ∀ i, ((t'.proc i).state = .zombie ↔ (t.proc i).state = .zombie) ∧
    ((t.proc i).state = .zombie → (t'.proc i).pid = (t.proc i).pid)) : t'.zombies = t.zombies := by
  have hsame : (Finset.univ.filter fun i => (t'.proc i).state = .zombie) =
      Finset.univ.filter fun i => (t.proc i).state = .zombie := Finset.filter_congr fun i _ => (h i).1
  unfold zombies
  rw [hsame]
  refine Multiset.map_congr rfl fun i hi => (h i).2 ?_
  simpa using hi

/-- One process more has ended. -/
theorem zombies_cons (hi : (t.proc i).state ≠ .zombie) (hi' : (t'.proc i).state = .zombie)
    (h : ∀ j, j ≠ i → ((t'.proc j).state = .zombie ↔ (t.proc j).state = .zombie) ∧
      ((t.proc j).state = .zombie → (t'.proc j).pid = (t.proc j).pid)) :
    t'.zombies = (t'.proc i).pid ::ₘ t.zombies := by
  have hnot : i ∉ Finset.univ.filter fun i => (t.proc i).state = .zombie := by simpa using hi
  have hins : (Finset.univ.filter fun i => (t'.proc i).state = .zombie) =
      insert i (Finset.univ.filter fun i => (t.proc i).state = .zombie) := by
    ext j
    by_cases hj : j = i
    · subst hj
      simp [hi']
    · simp [hj, (h j hj).1]
  unfold zombies
  rw [hins, Finset.insert_val_of_notMem hnot, Multiset.map_cons]
  refine congrArg _ (Multiset.map_congr rfl fun j hj => ?_)
  have hz : (t.proc j).state = .zombie := by simpa using hj
  exact (h j (fun hc => hi (hc ▸ hz))).2 hz

theorem zombies_set (hi : (t.proc i).state ≠ .zombie) (hx : x.state ≠ .zombie) :
    (t.set i x).zombies = t.zombies := by
  refine zombies_congr fun j => ?_
  by_cases hj : j = i
  · subst hj
    rw [set_proc_self]
    exact ⟨iff_of_false hx hi, fun hz => absurd hz hi⟩
  · rw [set_proc_of_ne hj]
    exact ⟨Iff.rfl, fun _ => rfl⟩

theorem zombies_exit (hi : t.Active i) (hne : i ≠ t.initproc) :
    (t.exit i).zombies = (t.proc i).pid ::ₘ t.zombies := by
  obtain ⟨u, hu, hexit, _⟩ := exit_passed hne
  have hpid : ((t.exit i).proc i).pid = (t.proc i).pid := by
    rw [hexit, set_proc_self]
    exact (hu.kept i).1
  rw [← hpid]
  refine zombies_cons hi.not_zombie (by rw [hexit, set_proc_self]) fun j hj => ?_
  rw [hexit, set_proc_of_ne hj]
  refine ⟨?_, fun _ => (hu.kept j).1⟩
  rcases hu.state j with hs | ⟨hs, hs'⟩
  · rw [hs]
  · simp [hs, hs']

theorem zombies_reaped (hj : (t.proc j).state = .zombie) :
    t.zombies = (t.proc j).pid ::ₘ (t.set j (reaped (t.proc j))).zombies := by
  refine zombies_cons (by simp [reaped]) hj fun k hk => ?_
  rw [set_proc_of_ne hk]
  exact ⟨Iff.rfl, fun _ => rfl⟩

end Ptable

namespace ProcRun

open Ptable

variable {s t : ProcRun} {st : ProcStep} {sts : List ProcStep} {i : Fin nproc} {pid : Int32}

/-- The pid of the process that ends in a step, if one does. -/
def ended (s : ProcRun) : ProcStep → Multiset Int32
  | .exit i => {(s.table.proc i).pid}
  | _ => 0

/-- The pid of the child that a scan of `wait` finds. -/
def reported (s : ProcRun) : ProcStep → Multiset Int32
  | .wait i =>
      match s.table.find fun p => p.parent = some i ∧ p.state = .zombie with
      | some j => {(s.table.proc j).pid}
      | none => 0
  | _ => 0

/-- The sum over a run. -/
def total (f : ProcRun → ProcStep → Multiset Int32) (s : ProcRun) : List ProcStep → Multiset Int32
  | [] => 0
  | st :: sts => f s st + total f (s.step st) sts

theorem total_wait (s : ProcRun) (i : Fin nproc) :
    s.reported (.wait i) + (s.step (.wait i)).table.zombies = s.table.zombies ∨
      (s.table.proc i).state = .zombie := by
  by_cases hi : (s.table.proc i).state = .zombie
  · exact Or.inr hi
  refine Or.inl ?_
  simp only [reported, step]
  unfold Ptable.wait
  cases hf : s.table.find fun p => p.parent = some i ∧ p.state = .zombie with
  | some j =>
      have hz : (s.table.proc j).parent = some i ∧ (s.table.proc j).state = .zombie := by
        simpa using find_eq_some hf
      simp only
      rw [Multiset.singleton_add, ← zombies_reaped hz.2]
  | none =>
      simp only
      rw [zero_add]
      split
      · rfl
      · exact zombies_set hi (by simp)

theorem zombies_kill (s : ProcRun) (pid : Int32) : (s.step (.kill pid)).table.zombies = s.table.zombies := by
  simp only [step]
  unfold Ptable.kill
  cases hf : s.table.find fun p => p.pid = pid with
  | none => rfl
  | some j =>
      refine zombies_congr fun k => ?_
      by_cases hk : k = j
      · subst hk
        simp only [set_proc_self]
        refine ⟨?_, fun _ => trivial⟩
        split
        · rename_i hs
          simp [hs]
        · exact Iff.rfl
      · rw [set_proc_of_ne hk]
        exact ⟨Iff.rfl, fun _ => rfl⟩

/-- One step. -/
theorem Family.total_step (h : Family s) (hok : s.Admits st) :
    s.ended st + s.table.zombies = s.reported st + (s.step st).table.zombies := by
  cases st with
  | fork i =>
      simp only [ended, reported, zero_add, ProcRun.step]
      cases ha : s.table.allocproc with
      | none => rfl
      | some r =>
          obtain ⟨j, t⟩ := r
          obtain ⟨hfree, rfl⟩ := allocproc_eq_some ha
          have hunused : (s.table.proc j).state = .unused := not_not.mp hfree
          exact (zombies_set (by simp [hunused]) (by simp)).symm
  | outOfMemory i =>
      simp only [ended, reported, zero_add, ProcRun.step]
      cases hnp : s.np i with
      | none => rfl
      | some j => exact (zombies_set (by simp [(h.forking i j hnp).2]) (by simp)).symm
  | forked i =>
      simp only [ended, reported, zero_add, ProcRun.step]
      cases hnp : s.np i with
      | none => rfl
      | some j => exact (zombies_set (by simp [(h.forking i j hnp).2]) (by simp)).symm
  | exit i =>
      have hactive : s.table.Active i := Or.inr (Or.inr hok.1.1)
      simp only [ended, reported, zero_add, ProcRun.step, zombies_exit hactive hok.2, Multiset.singleton_add]
  | wait i =>
      have hi : (s.table.proc i).state = .running := hok.1
      refine (zero_add _).trans ((total_wait s i).resolve_right ?_).symm
      simp [hi]
  | kill pid => simp only [ended, reported, zero_add, zombies_kill]
  | run i =>
      have hi : (s.table.proc i).state = .runnable := hok
      simp only [ended, reported, zero_add, ProcRun.step]
      exact (zombies_set (by simp [hi]) (by simp)).symm
  | yield i =>
      have hi : (s.table.proc i).state = .running := hok
      simp only [ended, reported, zero_add, ProcRun.step]
      exact (zombies_set (by simp [hi]) (by simp)).symm
  | sleep i chan =>
      have hi : (s.table.proc i).state = .running := hok
      simp only [ended, reported, zero_add, ProcRun.step]
      exact (zombies_set (by simp [hi]) (by simp)).symm
  | wakeup chan =>
      simp only [ended, reported, zero_add, ProcRun.step]
      refine (zombies_congr fun k => ?_).symm
      have hwake := wakeup1_passed s.table 0 chan
      refine ⟨?_, fun _ => (hwake.kept k).1⟩
      rcases hwake.state k with hs | ⟨hs, hs'⟩
      · rw [hs]
      · simp [hs, hs']

/-- **Every end is reported once.**  In every run, the pids of the processes that ended are those that
`wait` has reported and those of the zombies; `wait` reports nothing else, and returns `-1` only to a
process without children or one that has been killed. -/
theorem ends_reported (h : Run step (fun s st => s.Admits st ∧ Ordinary st) booted sts s) :
    total ended booted sts = total reported booted sts + s.table.zombies ∧
      ∀ i pid, (s.table.wait i).1 = some pid → s.reported (.wait i) = {pid} ∨ pid = -1 ∧
        ((∀ j, (s.table.proc j).parent ≠ some i) ∨ (s.table.proc i).killed = true) := by
  constructor
  · have hmain : ∀ {s₀ s : ProcRun} {sts : List ProcStep},
        Run step (fun s st => s.Admits st ∧ Ordinary st) s₀ sts s → Family s₀ →
        total ended s₀ sts + s₀.table.zombies = total reported s₀ sts + s.table.zombies := by
      intro s₀ s sts hrun
      induction hrun with
      | nil s => exact fun _ => rfl
      | @cons s₀ s st sts hok _ ih =>
          intro hfam
          have hstep := hfam.total_step hok.1
          have hrest := ih (hfam.step hok.1 hok.2)
          calc ended s₀ st + total ended (s₀.step st) sts + s₀.table.zombies
              = total ended (s₀.step st) sts + (ended s₀ st + s₀.table.zombies) := by
                rw [add_comm (ended s₀ st), add_assoc]
            _ = total ended (s₀.step st) sts + (reported s₀ st + (s₀.step st).table.zombies) := by
                rw [hstep]
            _ = reported s₀ st + (total ended (s₀.step st) sts + (s₀.step st).table.zombies) :=
                add_left_comm _ _ _
            _ = reported s₀ st + (total reported (s₀.step st) sts + s.table.zombies) := by rw [hrest]
            _ = reported s₀ st + total reported (s₀.step st) sts + s.table.zombies :=
                (add_assoc _ _ _).symm
    have hzero : booted.table.zombies = 0 := by decide +kernel
    have hrun := hmain h Family.booted
    rwa [hzero, add_zero] at hrun
  · intro i pid hpid
    simp only [reported]
    unfold Ptable.wait at hpid
    cases hf : s.table.find fun p => p.parent = some i ∧ p.state = .zombie with
    | some j =>
        simp only [hf, Option.some.injEq] at hpid ⊢
        exact Or.inl (by rw [hpid])
    | none =>
        simp only [hf] at hpid
        split at hpid
        · rename_i hkids
          simp only [Option.some.injEq] at hpid
          refine Or.inr ⟨hpid.symm, hkids.imp_left fun hnone j hj => ?_⟩
          have := find_eq_none hnone j
          simp [hj] at this
        · cases hpid

/-- `initproc` forks twice; a child forks, and ends before its child, which then goes to `initproc`. -/
theorem kinship_of_run_orphan :
    ∃ s, Run step (fun s st => s.Admits st ∧ Ordinary st) booted
        [.run 0, .fork 0, .forked 0, .run 1, .fork 1, .forked 1, .wait 0, .exit 1, .run 0, .wait 0] s ∧
      (s.table.proc 2).parent = some 0 ∧ Kinship s.table := by
  have hrun : Run step (fun s st => s.Admits st ∧ Ordinary st) booted
      [.run 0, .fork 0, .forked 0, .run 1, .fork 1, .forked 1, .wait 0, .exit 1, .run 0, .wait 0] _ :=
    .cons ⟨by decide +kernel, trivial⟩ (.cons ⟨by decide +kernel, trivial⟩
      (.cons ⟨by decide +kernel, trivial⟩ (.cons ⟨by decide +kernel, trivial⟩
        (.cons ⟨by decide +kernel, trivial⟩ (.cons ⟨by decide +kernel, trivial⟩
          (.cons ⟨by decide +kernel, trivial⟩ (.cons ⟨by decide +kernel, trivial⟩
            (.cons ⟨by decide +kernel, trivial⟩ (.cons ⟨by decide +kernel, trivial⟩ (.nil _))))))))))
  exact ⟨_, hrun, by decide +kernel, kinship_of_run hrun⟩

theorem ends_reported_child :
    ∃ s, Run step (fun s st => s.Admits st ∧ Ordinary st) booted
        [.run 0, .fork 0, .forked 0, .run 1, .exit 1, .wait 0] s ∧
      total ended booted [.run 0, .fork 0, .forked 0, .run 1, .exit 1, .wait 0] =
        total reported booted [.run 0, .fork 0, .forked 0, .run 1, .exit 1, .wait 0] + s.table.zombies := by
  have hrun : Run step (fun s st => s.Admits st ∧ Ordinary st) booted
      [.run 0, .fork 0, .forked 0, .run 1, .exit 1, .wait 0] _ :=
    .cons ⟨by decide +kernel, trivial⟩ (.cons ⟨by decide +kernel, trivial⟩
      (.cons ⟨by decide +kernel, trivial⟩ (.cons ⟨by decide +kernel, trivial⟩
        (.cons ⟨by decide +kernel, trivial⟩ (.cons ⟨by decide +kernel, trivial⟩ (.nil _))))))
  exact ⟨_, hrun, (ends_reported hrun).1⟩

end ProcRun

end Xv6
end LfsXv6
