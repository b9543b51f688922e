import LfsXv6.Linux.Entries

/-!
# Removal — what `unlink_server` removes, and when it refuses

`lookup_server` searches all blocks of the parent, but the loop that clears the entry sees the first
block only, and so does the test whether the child is empty.  A name that lies behind the first block
keeps its entry and loses its inode.
-/

namespace LfsXv6
namespace Linux

open Lib

/-! ## Runs -/

/-- The image and its entries are in order in every state that tolerated requests lead to. -/
theorem run_regular {stack : Directory} {xs : List Turn} {s : Server}
    (hrun : Run turn (fun s x => Tolerated s x.1) (format stack) xs s) : WF s ∧ s.tree.Regular := by
  obtain ⟨hwf, htree, _⟩ := format_spec stack
  refine hrun.invariant (I := fun u => WF u ∧ u.tree.Regular) ?_
    ⟨hwf, by rw [htree]; exact Fs.init_regular⟩
  rintro u x ⟨hu, hreg⟩ hok
  exact ⟨hu.turn_tolerated hok, hu.regular_turn hreg hok⟩

/-! ## Tables -/

section Slots

variable {slots : List DirSlot} {name : Name} {i : Int32} {a : Nat}

/-- A name whose entries all lie in the first block is not found once that block is cleared. -/
theorem lookup_clearIn (hhit : SlotTable.lookup marker slots name.bytes = some i)
    (hlive : SlotTable.Live slots a name.bytes i) (ha : a < 128)
    (huniq : name.bytes ≠ marker → ∀ b j, SlotTable.Live slots b name.bytes j → b < 128) :
    lookupSlots (clearIn slots name) name = -1 := by
  have hmiss : SlotTable.lookup marker (clearIn slots name) name.bytes = none := by
    cases hlook : SlotTable.lookup marker (clearIn slots name) name.bytes with
    | none => rfl
    | some j =>
        exfalso
        obtain ⟨b, hb, hbefore⟩ := SlotTable.lookup_eq_some_iff.mp hlook
        obtain ⟨hb', hnot⟩ := live_clearIn.mp hb
        have hge : 128 ≤ b := by
          by_contra hlt
          exact hnot ⟨by omega, rfl⟩
        by_cases hn : name.bytes = marker
        · -- The slot where the name was found is free now, and named by the marker.
          obtain ⟨q, hq, hfirst⟩ := SlotTable.lookup_eq_some_iff.mp hhit
          have hqa : q ≤ a := by
            by_contra hlt
            exact hfirst a (by omega) _ hlive rfl
          have hlen : q < (clearIn slots name).length := by
            rw [length_clearIn]
            exact hq.lt_length
          have hsl : (clearIn slots name)[q]? = some (clearIn slots name)[q] :=
            List.getElem?_eq_getElem hlen
          cases hc : (clearIn slots name)[q] with
          | none =>
              rw [hc] at hsl
              exact hbefore q (by omega) none hsl hn.symm
          | some y =>
              rw [hc] at hsl
              obtain ⟨hq', hnot'⟩ := live_clearIn.mp (show SlotTable.Live _ q y.1 y.2 from hsl)
              exact hnot' ⟨by omega, (hq'.inj hq).1⟩
        · exact absurd (huniq hn b j hb') (by omega)
  rw [lookupSlots, hmiss]
  rfl

theorem lookup_of_lookupSlots (h : lookupSlots slots name = i) (hi : 0 ≤ i) :
    SlotTable.lookup marker slots name.bytes = some i := by
  rw [lookupSlots] at h
  cases hlook : SlotTable.lookup marker slots name.bytes with
  | none =>
      rw [hlook, Option.getD_none] at h
      rw [← h] at hi
      exact absurd hi (by decide)
  | some j =>
      rw [hlook, Option.getD_some] at h
      rw [h]

end Slots

/-! ## One removal -/

section Unlink

variable {s : Server} {p i : Int32} {name : Name}

theorem WF.unlink_imap (h : WF s) (ha : Request.Addressed s (.unlink p name)) (st : Stack) :
    (unlinkServer s p name st).2.imap = s.imap ∨
      ∃ j, (unlinkServer s p name st).2.imap = Function.update s.imap j (-1) := by
  rcases h.unlinkServer_cases st ha with ⟨ret, q, hres, _⟩ | ⟨_, _, j, ws, q, _, _, _, hres, _⟩
  · left
    rw [hres]
    rfl
  · right
    refine ⟨j, ?_⟩
    rw [hres]
    rfl

/-- Only the number that is gone from the file system has a new `imap` slot. -/
theorem WF.unlink_imap_ne (h : WF s) (ha : Request.Addressed s (.unlink p name)) {st : Stack}
    {t : Server} (ht : (unlinkServer s p name st).2 = t)
    (hkept : ∀ j, j ≠ i → t.tree j = none → s.tree j = none) {j : Int32} (hj : j ≠ i) :
    t.imap j = s.imap j := by
  rcases h.unlink_imap ha st with heq | ⟨j', heq⟩
  · rw [← ht, heq]
  · rw [ht] at heq
    by_cases hjj : j = j'
    · have hfree : t.imap j = -1 := by rw [heq, hjj, Function.update_self]
      have hnone := hkept j hj (tree_eq_none_iff.mpr hfree)
      rw [hfree, tree_eq_none_iff.mp hnone]
    · rw [heq, Function.update_of_ne hjj]

/-- What the removal of entry `name` of `p`, which names inode `i`, should do: the entry is gone, so is
the inode, and everything else is as it was. -/
structure Cleared (s t : Server) (p : Int32) (name : Name) (i : Int32) : Prop where
  gone : ∀ st, (lookupServer t p name st).1 = -1
  freed : t.imap i = -1
  imap : ∀ j, j ≠ i → t.imap j = s.imap j
  others : ∀ q, q ≠ p → q ≠ i → ∀ k e n j, t.HasEntry q k e n j ↔ s.HasEntry q k e n j
  parent : ∃ k e, s.HasEntry p k e name.bytes i ∧
    ∀ k' e' n j, t.HasEntry p k' e' n j ↔ s.HasEntry p k' e' n j ∧ ¬ (k' = k ∧ e' = e)

/-- A removal that is answered with 0. -/
theorem WF.unlink_removes (h : WF s) (hdir : s.tree.IsDir p)
    (hlook : s.tree.lookup p name = i) (hi : 0 ≤ i) {st : Stack}
    (hret : (unlinkServer s p name st).1 = 0) :
    ∃ slots, s.tree.Removes p name slots i ∧
      (unlinkServer s p name st).2.tree =
        Function.update (Function.update s.tree p (some (.dir (clearIn slots name)))) i none := by
  obtain ⟨slots, hp⟩ := hdir
  have hhit : SlotTable.lookup marker slots name.bytes = some i := by
    refine lookup_of_lookupSlots ?_ hi
    rw [Fs.lookup, hp] at hlook
    exact hlook
  have href : Refines s (.unlink p name) (unlinkServer s p name st).1 (unlinkServer s p name st).2 :=
    h.unlink_refines (.inr (isDir_iff.mp ⟨slots, hp⟩).1)
  have hexec : (s.tree.unlink p name).1 = 0 := by
    rw [hret] at href
    exact href.ret_eq.symm
  have hrem : s.tree.Removes p name slots i := by
    refine ⟨hp, hhit, fun hin => ?_⟩
    by_contra hrefuse
    rw [Bool.not_eq_false] at hrefuse
    simp only [Fs.unlink, hp, hhit, hin, hrefuse, if_true] at hexec
    exact absurd hexec (by decide)
  refine ⟨slots, hrem, ?_⟩
  rw [href.tree_eq, Fs.exec, hrem.unlink_eq]

/-- **Removal.**  In every state that is reached, a removal that is answered with 0 removes the entry
and the inode it names and nothing else exactly when the entry lies in the first block of the parent
and is the only one of its name there. -/
theorem unlink_cleared_iff {stack : Directory} {xs : List Turn}
    (hrun : Run turn (fun s x => Tolerated s x.1) (format stack) xs s)
    (hp : s.Allocated p) (hdir : (s.inode p).type = mfsDirectory) (hdot : name ≠ Name.dot)
    (hdotdot : name ≠ Name.dotdot) {st : Stack} (hlook : (lookupServer s p name st).1 = i)
    (hi : 0 ≤ i) (hret : (unlinkServer s p name st).1 = 0) :
    Cleared s (unlinkServer s p name st).2 p name i ↔
      ∃ e, s.HasEntry p 0 e name.bytes i ∧ ∀ e' j, s.HasEntry p 0 e' name.bytes j → e' = e := by
  obtain ⟨h, hreg⟩ := run_regular hrun
  have hisdir : s.tree.IsDir p := isDir_iff.mpr ⟨hp, hdir⟩
  rw [h.lookup_dir hp] at hlook
  obtain ⟨slots, hrem, htree⟩ := h.unlink_removes hisdir hlook hi hret
  have haddr : Request.Addressed s (.unlink p name) := .inr hp
  have ht : WF (unlinkServer s p name st).2 := (h.unlink_refines haddr).wf
  generalize hres : (unlinkServer s p name st).2 = t at htree ht
  obtain ⟨a, hent, _⟩ := hrem.entry
  have hne : p ≠ i := by
    have hdot' : name.bytes ≠ Name.dot.bytes := fun hc => hdot (Name.ext hc)
    have hdotdot' : name.bytes ≠ Name.dotdot.bytes := fun hc => hdotdot (Name.ext hc)
    exact (hreg.apart hent hdot' hdotdot').symm
  have hiff : ∀ d k e n j, t.HasEntry d k e n j ↔
      d ≠ i ∧ s.HasEntry d k e n j ∧ ¬ (d = p ∧ k = 0 ∧ n = name.bytes) := by
    intro d k e n j
    have hk : 128 * k.val + e.val < 128 ↔ k = 0 := by
      rw [← Fin.val_eq_zero_iff]
      omega
    rw [ht.hasEntry_iff, htree, hrem.entry_iff, h.hasEntry_iff, hk]
  constructor
  · intro hc
    obtain ⟨k, e, hhas, hparent⟩ := hc.parent
    have hk : k = 0 := by
      by_contra hk
      have hkept : t.HasEntry p k e name.bytes i :=
        (hiff _ _ _ _ _).mpr ⟨hne, hhas, fun hc => hk hc.2.1⟩
      exact ((hparent _ _ _ _).mp hkept).2 ⟨rfl, rfl⟩
    subst hk
    refine ⟨e, hhas, ?_⟩
    intro e' j hhas'
    by_contra hee
    have hkept := (hparent 0 e' name.bytes j).mpr ⟨hhas', fun hc => hee hc.2⟩
    exact ((hiff _ _ _ _ _).mp hkept).2.2 ⟨rfl, rfl, rfl⟩
  · rintro ⟨e, hhas, huniq⟩
    have hlive : SlotTable.Live slots e.val name.bytes i := by
      have hent' := h.hasEntry_iff.mp hhas
      rw [Fin.val_zero, Nat.mul_zero, Nat.zero_add] at hent'
      exact (Fs.entry_of_dir hrem.parent).mp hent'
    have htp : t.tree p = some (.dir (clearIn slots name)) := by
      rw [htree, Function.update_of_ne hne, Function.update_self]
    have halloc : t.Allocated p := by
      intro hfree
      rw [tree_eq_none_iff.mpr hfree] at htp
      exact absurd htp (by simp)
    have hfreed : t.tree i = none := by rw [htree, Function.update_self]
    refine ⟨?_, tree_eq_none_iff.mp hfreed, ?_, ?_, 0, e, hhas, ?_⟩
    · intro st'
      rw [ht.lookup_dir halloc, Fs.lookup, htp]
      refine lookup_clearIn hrem.hit hlive e.isLt ?_
      intro hn b j hb
      have hsame := hreg.unique ((Fs.entry_of_dir hrem.parent).mpr hb)
        ((Fs.entry_of_dir hrem.parent).mpr hlive) hn
      rw [hsame]
      exact e.isLt
    · intro j hj
      refine h.unlink_imap_ne haddr hres ?_ hj
      intro j' hj' hnone
      rw [htree, Function.update_of_ne hj'] at hnone
      by_cases hjp : j' = p
      · rw [hjp, Function.update_self] at hnone
        exact absurd hnone (by simp)
      · rwa [Function.update_of_ne hjp] at hnone
    · intro q hqp hqi k e' n j
      rw [hiff]
      simp [hqp, hqi]
    · intro k' e' n j
      rw [hiff]
      constructor
      · rintro ⟨_, hold, hnot⟩
        refine ⟨hold, ?_⟩
        rintro ⟨rfl, rfl⟩
        have hname := ((h.hasEntry_iff.mp hold).inj (h.hasEntry_iff.mp hhas)).1
        exact hnot ⟨rfl, rfl, hname⟩
      · rintro ⟨hold, hnot⟩
        refine ⟨hne, hold, ?_⟩
        rintro ⟨_, rfl, rfl⟩
        exact hnot ⟨rfl, huniq e' j hold⟩

theorem unlink_cleared_file :
    ∃ s, Run turn (fun s x => Tolerated s x.1) (format (default : Stack).direct)
        [(.creat 0 mfsRegularFile ⟨[97], by decide, by decide⟩, default)] s ∧
      Cleared s (unlinkServer s 0 ⟨[97], by decide, by decide⟩ default).2 0
        ⟨[97], by decide, by decide⟩ 1 := by
  obtain ⟨s, hrun, h, htree, _⟩ := run_of_requests (default : Stack).direct
    [(.creat 0 mfsRegularFile ⟨[97], by decide, by decide⟩, default)] (by decide +kernel) (by decide)
  have htree' : s.tree = Fs.init.execs [.creat 0 mfsRegularFile ⟨[97], by decide, by decide⟩] := htree
  have hrun' := WF.run_tolerated_of_admitted hrun (format_spec _).1
  have hsome : s.tree 0 ≠ none := by
    rw [htree']
    decide +kernel
  have halloc : s.Allocated 0 := allocated_iff.mpr hsome
  have hent : s.tree.Entry 0 2 [97] 1 := by
    rw [htree']
    exact Fs.entry_of_slotAt (by decide +kernel)
  have hdir := (isDir_iff.mp hent.isDir).2
  have hlook : (lookupServer s 0 ⟨[97], by decide, by decide⟩ default).1 = 1 := by
    rw [h.lookup_dir halloc, htree']
    decide +kernel
  have href : Refines s (.unlink 0 ⟨[97], by decide, by decide⟩)
      (unlinkServer s 0 ⟨[97], by decide, by decide⟩ default).1
      (unlinkServer s 0 ⟨[97], by decide, by decide⟩ default).2 := h.unlink_refines (.inr halloc)
  have hret : (unlinkServer s 0 ⟨[97], by decide, by decide⟩ default).1 = 0 := by
    rw [href.ret_eq, htree']
    decide +kernel
  refine ⟨s, hrun', (unlink_cleared_iff hrun' halloc hdir (by decide) (by decide) hlook (by decide)
    hret).mpr ?_⟩
  obtain ⟨_, hreg⟩ := run_regular hrun'
  have hhas : s.HasEntry 0 0 2 [97] 1 := h.hasEntry_iff.mpr hent
  refine ⟨2, hhas, ?_⟩
  intro e' j hhas'
  have hsame := hreg.unique (h.hasEntry_iff.mp hhas') (h.hasEntry_iff.mp hhas) (by decide)
  refine Fin.ext ?_
  simpa using hsame

/-! ## A directory of two blocks -/

/-- A two-letter name. -/
def filler (k : Nat) : Name :=
  if h : 0 ∉ [65, UInt8.ofNat (k + 1)] then ⟨[65, UInt8.ofNat (k + 1)], by simp, h⟩ else Name.dne

/-- The root is filled up with files, so that directory `"d"` is the first entry of its second block;
then file `"x"` is created in `"d"`. -/
def busyDir : List Request :=
  (List.range 126).map (fun k => .creat 0 mfsRegularFile (filler k)) ++
    [.creat 0 mfsDirectory ⟨[100], by decide, by decide⟩,
      .creat 127 mfsRegularFile ⟨[120], by decide, by decide⟩]

theorem busyDir_tree : Fs.init.addresses busyDir = true ∧
    (Fs.init.execs busyDir).lookup 0 ⟨[100], by decide, by decide⟩ = 127 ∧
    ((Fs.init.execs busyDir).unlink 0 ⟨[100], by decide, by decide⟩).1 = 0 ∧
    ((Fs.init.execs busyDir).unlink 0 ⟨[100], by decide, by decide⟩).2.lookup 0
      ⟨[100], by decide, by decide⟩ = 127 ∧
    (Fs.init.execs busyDir).slotAt 0 128 = some (some ([100], 127)) ∧
    (Fs.init.execs busyDir).slotAt 127 2 = some (some ([120], 128)) := by
  decide +kernel

/-- The server after these requests. -/
theorem busyDir_run : ∃ xs s, Run turn Admitted (format (default : Stack).direct) xs s ∧ WF s ∧
    s.tree = Fs.init.execs busyDir := by
  obtain ⟨s, hrun, h, htree, _⟩ := run_of_requests (default : Stack).direct
    (busyDir.map fun r => (r, default)) (by
      rw [List.map_map]
      exact (congrArg _ (List.map_id busyDir)).trans busyDir_tree.1) (by decide +kernel)
  refine ⟨_, s, hrun, h, ?_⟩
  rw [htree, List.map_map]
  exact congrArg _ (List.map_id busyDir)

/-- The removal of `"d"` is answered with 0, and `"d"` is still found. -/
theorem not_unlink_cleared :
    ¬ ∀ (xs : List Turn) (s : Server), Run turn Admitted (format (default : Stack).direct) xs s →
      ∀ p i name st, s.Allocated p → (s.inode p).type = mfsDirectory → name ≠ Name.dot →
        name ≠ Name.dotdot → (lookupServer s p name st).1 = i → 0 ≤ i →
        (unlinkServer s p name st).1 = 0 → Cleared s (unlinkServer s p name st).2 p name i := by
  intro hclaim
  obtain ⟨_, hlook, hret, hafter, hslot, _⟩ := busyDir_tree
  obtain ⟨xs, s, hrun, h, htree⟩ := busyDir_run
  rw [← htree] at hlook hret hafter hslot
  have hdir := isDir_iff.mp (Fs.entry_of_slotAt hslot).isDir
  have href : Refines s (.unlink 0 ⟨[100], by decide, by decide⟩)
      (unlinkServer s 0 ⟨[100], by decide, by decide⟩ default).1
      (unlinkServer s 0 ⟨[100], by decide, by decide⟩ default).2 := h.unlink_refines (.inr hdir.1)
  have hcleared := hclaim xs s hrun 0 127 ⟨[100], by decide, by decide⟩ default hdir.1 hdir.2
    (by decide) (by decide) (by rw [h.lookup_dir hdir.1, hlook]) (by decide)
    (by rw [href.ret_eq]; exact hret)
  have hdir' : (unlinkServer s 0 ⟨[100], by decide, by decide⟩ default).2.Allocated 0 := by
    have hkept := hcleared.imap 0 (by decide)
    rw [Server.Allocated, hkept]
    exact hdir.1
  have hgone := hcleared.gone default
  rw [href.wf.lookup_dir hdir', href.tree_eq] at hgone
  exact absurd (hgone.symm.trans hafter) (by decide)

/-! ## Empty directories -/

/-- Directory `d` has an entry besides its dot entries. -/
def Server.NonEmpty (s : Server) (d : Int32) : Prop :=
  ∃ k e n j, s.HasEntry d k e n j ∧ n ≠ Name.dot.bytes ∧ n ≠ Name.dotdot.bytes

/-- The emptiness test, on the entries of the image. -/
theorem WF.refuses_iff (h : WF s) {d : Int32} {slots : List DirSlot} (hd : s.tree d = some (.dir slots)) :
    Fs.refuses (.dir slots) = true ↔ ∃ e n j, 2 ≤ e.val ∧ s.HasEntry d 0 e n j := by
  have hplace : ∀ e n j, s.HasEntry d 0 e n j ↔ SlotTable.Live slots e.val n j := by
    intro e n j
    rw [h.hasEntry_iff, Fs.entry_of_dir hd, Fin.val_zero, Nat.mul_zero, Nat.zero_add]
  rw [Fs.refuses, Bool.not_eq_true', ← Bool.not_eq_true, looksEmpty_iff]
  constructor
  · intro hocc
    push Not at hocc
    obtain ⟨q, h2, h128, sl, hsl, hlive⟩ := hocc
    cases sl with
    | none => exact absurd rfl hlive
    | some y => exact ⟨⟨q, h128⟩, y.1, y.2, h2, (hplace _ _ _).mpr hsl⟩
  · rintro ⟨e, n, j, h2, hhas⟩ hempty
    have hnone := hempty e.val h2 e.isLt _ ((hplace e n j).mp hhas)
    exact absurd hnone (by simp)

/-- The reply to the removal of a directory. -/
theorem WF.unlink_dir_eq (h : WF s) {d : Int32} (hp : s.Allocated p)
    (hdir : (s.inode p).type = mfsDirectory) {st : Stack} (hlook : (lookupServer s p name st).1 = d)
    (hd : s.Allocated d) (hddir : (s.inode d).type = mfsDirectory) :
    ((∃ e, s.HasEntry p 0 e name.bytes d) ∧ (∃ e n j, 2 ≤ e.val ∧ s.HasEntry d 0 e n j) →
        (unlinkServer s p name st).1 = -1) ∧
      (¬ ((∃ e, s.HasEntry p 0 e name.bytes d) ∧ ∃ e n j, 2 ≤ e.val ∧ s.HasEntry d 0 e n j) →
        (unlinkServer s p name st).1 = 0) := by
  obtain ⟨slots, hpt⟩ := isDir_iff.mpr ⟨hp, hdir⟩
  obtain ⟨slots', hdt⟩ := isDir_iff.mpr ⟨hd, hddir⟩
  have hhit : SlotTable.lookup marker slots name.bytes = some d := by
    refine lookup_of_lookupSlots ?_ (h.inRange d hd).1
    rw [h.lookup_dir hp, Fs.lookup, hpt] at hlook
    exact hlook
  have hplace : ∀ e j, s.HasEntry p 0 e name.bytes j ↔ SlotTable.Live slots e.val name.bytes j := by
    intro e j
    rw [h.hasEntry_iff, Fs.entry_of_dir hpt, Fin.val_zero, Nat.mul_zero, Nat.zero_add]
  have hin : inFirst slots name = true ↔ ∃ e, s.HasEntry p 0 e name.bytes d := by
    constructor
    · intro hin
      have hrem : ∃ a, a < 128 ∧ SlotTable.Live slots a name.bytes d := by
        obtain ⟨a, hlive, hfirst⟩ := SlotTable.lookup_eq_some_iff.mp hhit
        refine ⟨a, ?_, hlive⟩
        by_contra hge
        rw [inFirst, List.any_eq_true] at hin
        obtain ⟨sl, hmem, hname⟩ := hin
        obtain ⟨b, hb⟩ := List.mem_iff_getElem?.mp hmem
        rw [List.getElem?_take] at hb
        split at hb
        · exact hfirst b (by omega) sl hb (by simpa using hname)
        · exact absurd hb (by simp)
      obtain ⟨a, ha, hlive⟩ := hrem
      exact ⟨⟨a, ha⟩, (hplace _ _).mpr hlive⟩
    · rintro ⟨e, hhas⟩
      exact inFirst_of_live ((hplace e d).mp hhas) e.isLt
  have href : Refines s (.unlink p name) (unlinkServer s p name st).1 (unlinkServer s p name st).2 :=
    h.unlink_refines (.inr hp)
  have hchild : s.tree.child slots d = .dir slots' := by rw [Fs.child, hdt, Option.getD_some]
  rw [href.ret_eq, ← hin, ← h.refuses_iff hdt]
  simp only [Fs.exec, Fs.unlink, hpt, hhit, hchild]
  cases hc : inFirst slots name with
  | false => simp
  | true =>
      cases hr : Fs.refuses (.dir slots') with
      | false => simp
      | true => simp

/-- **Empty directories.**  The removal of directory `d` under the name `name` of `p` is refused
exactly when `d` has entries besides its dot entries, if the first block of `p` has the name, and the
first block of `d` such an entry behind the first two slots. -/
theorem unlink_empty_iff {stack : Directory} {xs : List Turn}
    (hrun : Run turn (fun s x => Tolerated s x.1) (format stack) xs s) {d : Int32}
    (hp : s.Allocated p) (hdir : (s.inode p).type = mfsDirectory) {st : Stack}
    (hlook : (lookupServer s p name st).1 = d) (hd : s.Allocated d)
    (hddir : (s.inode d).type = mfsDirectory) :
    ((s.NonEmpty d → (unlinkServer s p name st).1 = -1) ∧
      (¬ s.NonEmpty d → (unlinkServer s p name st).1 = 0)) ↔
    (s.NonEmpty d → (∃ e, s.HasEntry p 0 e name.bytes d) ∧
        ∃ e n j, 2 ≤ e.val ∧ s.HasEntry d 0 e n j) ∧
      (¬ s.NonEmpty d → ∀ e, s.HasEntry p 0 e name.bytes d →
        ∀ e' n j, s.HasEntry d 0 e' n j → e'.val < 2) := by
  obtain ⟨h, _⟩ := run_regular hrun
  obtain ⟨hyes, hno⟩ := h.unlink_dir_eq hp hdir hlook hd hddir
  have hne : (-1 : Int32) ≠ 0 := by decide
  constructor
  · rintro ⟨hfull, hempty⟩
    refine ⟨?_, ?_⟩
    · intro hn
      by_contra hc
      exact hne ((hfull hn).symm.trans (hno hc))
    · intro hn e hhas e' n j hhas'
      by_contra hlt
      exact hne ((hyes ⟨⟨e, hhas⟩, e', n, j, by omega, hhas'⟩).symm.trans (hempty hn))
  · rintro ⟨hfull, hempty⟩
    refine ⟨fun hn => hyes (hfull hn), ?_⟩
    · intro hn
      refine hno ?_
      rintro ⟨⟨e, hhas⟩, e', n, j, h2, hhas'⟩
      exact absurd (hempty hn e hhas e' n j hhas') (by omega)

theorem unlink_empty_first :
    ∃ s, Run turn (fun s x => Tolerated s x.1) (format (default : Stack).direct)
        [(.creat 0 mfsDirectory ⟨[97], by decide, by decide⟩, default)] s ∧
      (unlinkServer s 0 ⟨[97], by decide, by decide⟩ default).1 = 0 := by
  obtain ⟨s, hrun, h, htree, _⟩ := run_of_requests (default : Stack).direct
    [(.creat 0 mfsDirectory ⟨[97], by decide, by decide⟩, default)] (by decide +kernel) (by decide)
  have htree' : s.tree = Fs.init.execs [.creat 0 mfsDirectory ⟨[97], by decide, by decide⟩] := htree
  have hrun' := WF.run_tolerated_of_admitted hrun (format_spec _).1
  have hent : s.tree.Entry 0 2 [97] 1 := by
    rw [htree']
    exact Fs.entry_of_slotAt (by decide +kernel)
  have hdir := isDir_iff.mp hent.isDir
  have hfree : Fs.init.freeInum = 1 := by decide +kernel
  have hadd : (addEntry (newDir 0 0) ⟨[97], by decide, by decide⟩ 1).isSome = true := by
    decide +kernel
  have hnew : s.tree 1 = some (.dir (newDir 1 0)) := by
    rw [htree']
    obtain ⟨slots, hslots⟩ := Option.isSome_iff_exists.mp hadd
    have hmiss : lookupSlots (newDir 0 0) ⟨[97], by decide, by decide⟩ = -1 := by decide +kernel
    have hroot : Fs.init 0 = some (.dir (newDir 0 0)) := rfl
    simp only [Fs.execs, Fs.exec, List.foldl, Fs.creat, hroot, hmiss, hfree, hslots]
    rfl
  have hddir := isDir_iff.mp ⟨_, hnew⟩
  have hlook : (lookupServer s 0 ⟨[97], by decide, by decide⟩ default).1 = 1 := by
    rw [h.lookup_dir hdir.1, htree']
    decide +kernel
  have hdots : ∀ k e n j, s.HasEntry 1 k e n j → 128 * k.val + e.val < 2 ∧
      (n = Name.dot.bytes ∨ n = Name.dotdot.bytes) := by
    intro k e n j hhas
    have hlive := (Fs.entry_of_dir hnew).mp (h.hasEntry_iff.mp hhas)
    rcases live_newDir.mp hlive with ⟨hq, hn, _⟩ | ⟨hq, hn, _⟩
    · exact ⟨by omega, .inl hn⟩
    · exact ⟨by omega, .inr hn⟩
  have hempty : ¬ s.NonEmpty 1 := by
    rintro ⟨k, e, n, j, hhas, hd, hdd⟩
    rcases (hdots k e n j hhas).2 with hn | hn
    · exact hd hn
    · exact hdd hn
  refine ⟨s, hrun', ((unlink_empty_iff hrun' hdir.1 hdir.2 hlook hddir.1 hddir.2).mpr ⟨?_, ?_⟩).2
    hempty⟩
  · exact fun hc => absurd hc hempty
  · intro _ e _ e' n j hhas
    have hlt := (hdots 0 e' n j hhas).1
    omega

/-- The removal of `"d"`, which holds `"x"`, is answered with 0. -/
theorem not_unlink_empty :
    ¬ ∀ (xs : List Turn) (s : Server), Run turn Admitted (format (default : Stack).direct) xs s →
      ∀ p d name st, s.Allocated p → (s.inode p).type = mfsDirectory → name ≠ Name.dot →
        name ≠ Name.dotdot → (lookupServer s p name st).1 = d → s.Allocated d →
        (s.inode d).type = mfsDirectory → s.NonEmpty d → (unlinkServer s p name st).1 = -1 := by
  intro hclaim
  obtain ⟨_, hlook, hret, _, hslot, hslot'⟩ := busyDir_tree
  obtain ⟨xs, s, hrun, h, htree⟩ := busyDir_run
  rw [← htree] at hlook hret hslot hslot'
  have hdir := isDir_iff.mp (Fs.entry_of_slotAt hslot).isDir
  have hent := Fs.entry_of_slotAt hslot'
  have hddir := isDir_iff.mp hent.isDir
  have hhas : s.HasEntry 127 0 2 [120] 128 := h.hasEntry_iff.mpr hent
  have hrefused := hclaim xs s hrun 0 127 ⟨[100], by decide, by decide⟩ default hdir.1 hdir.2
    (by decide) (by decide) (by rw [h.lookup_dir hdir.1, hlook]) hddir.1 hddir.2
    ⟨0, 2, [120], 128, hhas, by decide, by decide⟩
  have href : Refines s (.unlink 0 ⟨[100], by decide, by decide⟩)
      (unlinkServer s 0 ⟨[100], by decide, by decide⟩ default).1
      (unlinkServer s 0 ⟨[100], by decide, by decide⟩ default).2 := h.unlink_refines (.inr hdir.1)
  have hzero : (unlinkServer s 0 ⟨[100], by decide, by decide⟩ default).1 = 0 := by
    rw [href.ret_eq]
    exact hret
  exact absurd (hrefused.symm.trans hzero) (by decide)

end Unlink

end Linux
end LfsXv6
