import LfsXv6.Linux.Entries

/-!
# Findable — whether every entry can be looked up

A free slot is marked by the name `"DNE"`, and a search stops at the first slot of the name it looks
for.  So an entry that is itself called `"DNE"` is found only while no slot in front of it is free.
Creation keeps it that way, since it fills the first free slot; a removal that frees a slot in front
of such an entry hides it.
-/

namespace LfsXv6
namespace Linux

open Lib

namespace Fs

/-- In front of an entry called `"DNE"` every slot holds an entry of another name. -/
def Findable (fs : Fs) : Prop :=
  ∀ p a i, fs.Entry p a marker i → ∀ b < a, ∃ n j, fs.Entry p b n j ∧ n ≠ marker

/-- A removal that frees a slot of the first block in front of an entry called `"DNE"`. -/
def Hides (fs : Fs) : Request → Prop
  | .unlink p name => ∃ slots i, fs.Removes p name slots i ∧ p ≠ i ∧ name ≠ Name.dne ∧
      ∃ a b j k, a < b ∧ a < 128 ∧ fs.Entry p a name.bytes j ∧ fs.Entry p b marker k
  | _ => False

section Findable

variable {fs fs' : Fs} {p : Int32} {name : Name} {slots slots' : List DirSlot} {r : Request}

/-- Every entry is the first of its name, and found. -/
theorem Findable.lookup_eq (h : fs.Findable) (hreg : fs.Regular) {a : Nat} {i : Int32}
    (hent : fs.Entry p a name.bytes i) : fs.lookup p name = i := by
  obtain ⟨slots, hp⟩ := hent.isDir
  have hlook : SlotTable.lookup marker slots name.bytes = some i := by
    refine SlotTable.lookup_of_live ((entry_of_dir hp).mp hent) ?_ ?_
    · intro b hb j hlive
      have hent' : fs.Entry p b name.bytes j := (entry_of_dir hp).mpr hlive
      by_cases hn : name.bytes = marker
      · obtain ⟨n, k, hother, hne⟩ := h _ _ _ (hn ▸ hent) b hb
        exact hne ((hother.inj hent').1.trans hn)
      · have := hreg.unique hent hent' hn
        omega
    · intro hn b hb
      obtain ⟨n, j, hother, _⟩ := h _ _ _ (hn ▸ hent) b hb
      exact ⟨n, j, (entry_of_dir hp).mp hother⟩
  rw [lookup, hp]
  simp only [lookupSlots, hlook, Option.getD_some]

theorem Findable.unique (h : fs.Findable) (hreg : fs.Regular) {a b : Nat} {n : List UInt8}
    {i j : Int32} (hent : fs.Entry p a n i) (hent' : fs.Entry p b n j) : a = b := by
  by_cases hn : n = marker
  · subst hn
    rcases Nat.lt_trichotomy a b with hlt | heq | hgt
    · obtain ⟨m, k, hother, hne⟩ := h _ _ _ hent' a hlt
      exact absurd (hother.inj hent).1 hne
    · exact heq
    · obtain ⟨m, k, hother, hne⟩ := h _ _ _ hent b hgt
      exact absurd (hother.inj hent').1 hne
  · exact hreg.unique hent hent' hn

/-- A directory in which `"DNE"` is not found has no entry of that name. -/
theorem Findable.not_entry_of_miss (h : fs.Findable) (hreg : fs.Regular)
    (hent : fs.Enters p name slots slots') {a : Nat} {i : Int32} : ¬ fs.Entry p a name.bytes i := by
  intro he
  have hlook := h.lookup_eq hreg he
  have hmiss := hent.miss
  rw [lookup, hent.parent] at hlook
  simp only at hlook
  rw [hlook] at hmiss
  exact (hreg.inRange he).ne_neg_one hmiss

theorem Findable.store (h : fs.Findable) (hreg : fs.Regular)
    (hent : fs.Enters p name slots slots') :
    Findable (Function.update fs p (some (.dir slots'))) := by
  obtain ⟨a, hbefore, hfresh, hiff⟩ := hent.entry_store
  intro d b i he c hc
  rcases (hiff d b marker i).mp he with ⟨rfl, rfl, hn, _⟩ | hold
  · -- the new entry is itself called `"DNE"`: the slots in front of it are taken, by other names
    obtain ⟨n, j, hold⟩ := hbefore c hc
    refine ⟨n, j, (hiff _ _ _ _).mpr (Or.inr hold), ?_⟩
    rintro rfl
    exact h.not_entry_of_miss hreg hent (hn ▸ hold)
  · obtain ⟨n, j, hother, hne⟩ := h _ _ _ hold c hc
    exact ⟨n, j, (hiff _ _ _ _).mpr (Or.inr hother), hne⟩

/-- **Step.**  Every request that hides nothing keeps every entry findable. -/
theorem Findable.change (h : fs.Findable) (hreg : fs.Regular) (hhides : ¬ fs.Hides r)
    (hc : fs.Change r fs') : fs'.Findable := by
  cases hc with
  | same => exact h
  | write hi =>
      intro d b i he c hc
      obtain ⟨n, j, hother, hne⟩ := h _ _ _ ((entry_write hi _ _ _ _).mp he) c hc
      exact ⟨n, j, (entry_write hi _ _ _ _).mpr hother, hne⟩
  | store _ hent => exact h.store hreg hent
  | create _ hent =>
      have hstore := h.store hreg hent
      intro d b i he c hc
      rcases (hent.entry_create _ d b marker i).mp he with ⟨_, _, ⟨_, hn, _⟩ | ⟨_, hn, _⟩⟩ | hold
      · exact absurd hn (by decide)
      · exact absurd hn (by decide)
      · obtain ⟨n, j, hother, hne⟩ := hstore _ _ _ hold c hc
        exact ⟨n, j, (hent.entry_create _ _ _ _ _).mpr (Or.inr hother), hne⟩
  | remove hrem =>
      rename_i q name slots i
      intro d b j he c hc
      obtain ⟨hdi, hold, hnot⟩ := (hrem.entry_iff _ _ _ _).mp he
      obtain ⟨n, k, hother, hne⟩ := h _ _ _ hold c hc
      refine ⟨n, k, (hrem.entry_iff _ _ _ _).mpr ⟨hdi, hother, ?_⟩, hne⟩
      -- a slot freed in front of the entry would hide it
      rintro ⟨rfl, hlt, rfl⟩
      refine hhides ⟨slots, i, hrem, hdi, ?_, c, b, k, j, hc, hlt, hother, hold⟩
      rintro rfl
      exact hne rfl

theorem init_findable : init.Findable := by
  intro p a i h
  obtain ⟨_, ⟨_, hn, _⟩ | ⟨_, hn, _⟩⟩ := init_entry.mp h <;> exact absurd hn (by decide)

end Findable

end Fs

/-! ## Runs of the server -/

/-- A turn on a number that is out of range or allocated that hides no entry. -/
def Plain (s : Server) (x : Turn) : Prop := Admitted s x ∧ ¬ s.tree.Hides x.1

/-- **Unique names.**  In every state of a run from a fresh image whose removals free no slot in front
of an entry called `"DNE"`, no two live entries of a directory have the same name, and
`lookup_server` finds every live entry. -/
theorem names_unique_findable {stack : Directory} {xs : List Turn} {s : Server}
    (hrun : Run turn Plain (format stack) xs s) :
    (∀ p k e k' e' n i i', s.HasEntry p k e n i → s.HasEntry p k' e' n i' → k = k' ∧ e = e') ∧
      ∀ p k e n i, s.HasEntry p k e n i →
        ∃ name : Name, name.bytes = n ∧ ∀ st, (lookupServer s p name st).1 = i := by
  obtain ⟨hwf₀, htree₀, _⟩ := format_spec stack
  obtain ⟨hwf, hreg, hfind⟩ : WF s ∧ s.tree.Regular ∧ s.tree.Findable := by
    refine hrun.invariant (I := fun u => WF u ∧ u.tree.Regular ∧ u.tree.Findable) ?_
      ⟨hwf₀, by rw [htree₀]; exact Fs.init_regular, by rw [htree₀]; exact Fs.init_findable⟩
    rintro u x ⟨hu, hreg, hfind⟩ ⟨hadm, hhides⟩
    refine ⟨(hu.turn_refines hadm).wf, hu.regular_turn hreg (hu.tolerated_of_admitted hadm), ?_⟩
    rw [(hu.turn_refines hadm).tree_eq]
    exact hfind.change hreg hhides (u.tree.exec_change x.1)
  constructor
  · intro p k e k' e' n i i' hhas hhas'
    have hslot := hfind.unique hreg (hwf.hasEntry_iff.mp hhas) (hwf.hasEntry_iff.mp hhas')
    exact ⟨Fin.ext (by omega), Fin.ext (by omega)⟩
  · intro p k e n i hhas
    have hok := ((hwf.node p hhas.alloc).dir hhas.dir).slot_ok k hhas.used e
    have hlen : n.length ≤ 27 := by
      rcases hok with ⟨hfree, _⟩ | ⟨_, hlen⟩
      · exact absurd (hhas.inum.symm.trans hfree) hhas.live
      · rwa [hhas.name] at hlen
    have hnul : 0 ∉ n := by
      rw [← hhas.name]
      exact nul_not_mem_cstr _
    refine ⟨⟨n, hlen, hnul⟩, rfl, ?_⟩
    intro st
    rw [hwf.lookup_dir hhas.alloc]
    apply hfind.lookup_eq hreg
    exact hwf.hasEntry_iff.mp hhas

theorem names_unique_findable_dne :
    ∃ s, Run turn Plain (format (default : Stack).direct)
        [(.creat 0 mfsRegularFile Name.dne, default)] s ∧
      ∀ p k e n i, s.HasEntry p k e n i →
        ∃ name : Name, name.bytes = n ∧ ∀ st, (lookupServer s p name st).1 = i := by
  obtain ⟨hwf, htree, _⟩ := format_spec (default : Stack).direct
  have hok : Admitted (format (default : Stack).direct)
      (.creat 0 mfsRegularFile Name.dne, default) := by
    refine hwf.admitted_of_tree (Or.inr (by rw [htree]; decide +kernel)) ?_
    rw [format_eq]
    decide
  have hrun : Run turn Plain (format (default : Stack).direct) [_] _ :=
    Run.cons ⟨hok, fun hc => hc⟩ (Run.nil _)
  exact ⟨_, hrun, (names_unique_findable hrun).2⟩

/-- A fresh image, files `"a"` and `"DNE"`, and the removal of `"a"`: the slot it leaves hides
`"DNE"`. -/
theorem not_names_unique_findable :
    ¬ ∀ (xs : List Turn) (s : Server),
      Run turn (fun s x => s.Allocated x.1.inum) (format (default : Stack).direct) xs s →
      ∀ p k e n i, s.HasEntry p k e n i →
        ∃ name : Name, name.bytes = n ∧ ∀ st, (lookupServer s p name st).1 = i := by
  intro hclaim
  let reqs : List Request := [.creat 0 mfsRegularFile ⟨[97], by decide, by decide⟩,
    .creat 0 mfsRegularFile Name.dne, .unlink 0 ⟨[97], by decide, by decide⟩]
  obtain ⟨s, hrun, hwf, htree, _⟩ := run_of_requests (default : Stack).direct
    (reqs.map fun r => (r, default)) (by decide +kernel) (by decide)
  have hreqs : (reqs.map fun r => ((r, default) : Turn)).map Prod.fst = reqs := rfl
  rw [hreqs] at htree
  -- every request of the run is on the root, which stays allocated
  have hrun' : Run turn (fun s x => s.Allocated x.1.inum) (format (default : Stack).direct)
      (reqs.map fun r => (r, default)) s := by
    refine hrun.imp fun u x hx hadm => hadm.1.resolve_left (not_not.mpr ?_)
    revert x
    simp only [reqs, List.map_cons, List.map_nil, List.mem_cons, List.not_mem_nil, or_false]
    rintro x (rfl | rfl | rfl) _ <;> exact zero_inRange
  have hent : s.tree.Entry 0 3 marker 2 := by
    rw [htree]
    exact Fs.entry_of_slotAt (by decide +kernel)
  obtain ⟨k, e, _, hhas⟩ := hwf.exists_hasEntry hent
  obtain ⟨name, hname, hlook⟩ := hclaim _ s hrun' 0 k e _ _ hhas
  have hdne : name = Name.dne := Name.ext hname
  have hmiss : s.tree.lookup 0 name = -1 := by
    rw [htree, hdne]
    decide +kernel
  have hfound := hlook default
  rw [hwf.lookup_dir hhas.alloc, hmiss] at hfound
  exact absurd hfound (by decide)

end Linux
end LfsXv6
