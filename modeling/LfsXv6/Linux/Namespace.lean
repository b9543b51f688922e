import LfsXv6.Linux.Entries

/-!
# Namespace — the directory tree as a whole

In a rooted file system every directory starts with its two dot entries, every other entry names an
allocated inode, and every inode but the root is named by exactly one of them.  The requests that
break this are a creation of an unknown type (its entry stays behind), a removal of a dot entry, a
removal of an entry past the first block (the inode goes, the entry stays), a removal of a directory
whose first block is empty but which has entries further on, and a removal of `"DNE"` when the first
block holds two entries of that name.
-/

namespace LfsXv6
namespace Linux

open Lib

namespace Fs

/-- Directory `p` holds an entry for `i` that is not one of its dot entries. -/
def Holds (fs : Fs) (p i : Int32) : Prop := ∃ a n, 2 ≤ a ∧ fs.Entry p a n i

/-- The invariant of the directory tree. -/
structure Rooted (fs : Fs) : Prop where
  root : fs.IsDir 0
  dot : ∀ {d}, fs.IsDir d → fs.Entry d 0 Name.dot.bytes d
  dotdot : ∀ {d}, fs.IsDir d → ∃ p, fs.Entry d 1 Name.dotdot.bytes p ∧
    (d = 0 → p = 0) ∧ (d ≠ 0 → fs.Holds p d)
  names : ∀ {p a n i}, fs.Entry p a n i → 2 ≤ a → n ≠ Name.dot.bytes ∧ n ≠ Name.dotdot.bytes
  live : ∀ {p a n i}, fs.Entry p a n i → 2 ≤ a → fs i ≠ none ∧ i ≠ 0
  named : ∀ {i}, fs i ≠ none → i ≠ 0 → ∃ p, fs.Holds p i
  once : ∀ {p q a b n m i}, fs.Entry p a n i → fs.Entry q b m i → 2 ≤ a → 2 ≤ b → p = q ∧ a = b

/-- The requests that keep the tree rooted. -/
def Tidy (fs : Fs) : Request → Prop
  | .creat p type name => ¬ (UnknownType type ∧ ∃ slots slots', fs.Enters p name slots slots')
  | .unlink p name => ∀ slots i, fs.Removes p name slots i →
      name ≠ Name.dot ∧ name ≠ Name.dotdot ∧ inFirst slots name = true ∧
        (name = Name.dne → ∀ a b j k, a < 128 → b < 128 → fs.Entry p a marker j →
          fs.Entry p b marker k → a = b) ∧
        ∀ a n j, 128 ≤ a → ¬ fs.Entry i a n j
  | _ => True

section Rooted

variable {fs fs' : Fs} {p type : Int32} {name : Name} {slots slots' : List DirSlot} {r : Request}
  {i : Int32}

theorem Entry.ne_none {a : Nat} {n : List UInt8} (h : fs.Entry p a n i) : fs p ≠ none := by
  intro hnone
  exact not_entry_of_none hnone h

/-- The first two slots of a directory are its dot entries. -/
theorem Rooted.two_le (h : fs.Rooted) {a : Nat} {n : List UInt8} (hent : fs.Entry p a n i)
    (hdot : n ≠ Name.dot.bytes) (hdotdot : n ≠ Name.dotdot.bytes) : 2 ≤ a := by
  rcases a with _ | _ | a
  · exact absurd (hent.inj (h.dot hent.isDir)).1 hdot
  · obtain ⟨q, hq, _⟩ := h.dotdot hent.isDir
    exact absurd (hent.inj hq).1 hdotdot
  · omega

/-- Every entry names an allocated inode. -/
theorem Rooted.target (h : fs.Rooted) {a : Nat} {n : List UInt8} (hent : fs.Entry p a n i) :
    fs i ≠ none := by
  rcases a with _ | _ | a
  · rw [(hent.inj (h.dot hent.isDir)).2]
    exact hent.ne_none
  · obtain ⟨q, hq, hroot, hother⟩ := h.dotdot hent.isDir
    obtain rfl := (hent.inj hq).2
    by_cases hp : p = 0
    · rw [hroot hp, ← hp]
      exact hent.ne_none
    · obtain ⟨b, m, _, hb⟩ := hother hp
      exact hb.ne_none
  · exact (h.live hent (by omega)).1

/-- The dot entries are found, so a creation never stores one. -/
theorem Rooted.lookup_dot (h : fs.Rooted) (hd : fs.IsDir p) : fs.lookup p Name.dot = p := by
  obtain ⟨slots, hp⟩ := hd
  have hlive := (entry_of_dir hp).mp (h.dot ⟨slots, hp⟩)
  have hlook : SlotTable.lookup marker slots Name.dot.bytes = some p :=
    SlotTable.lookup_of_live hlive (by omega) (fun hc => absurd hc (by decide))
  rw [Fs.lookup, hp]
  simp only [lookupSlots, hlook, Option.getD_some]

theorem Rooted.lookup_dotdot (h : fs.Rooted) (hent : fs.Entry p 1 Name.dotdot.bytes i) :
    fs.lookup p Name.dotdot = i := by
  obtain ⟨slots, hp⟩ := hent.isDir
  have hlook : SlotTable.lookup marker slots Name.dotdot.bytes = some i := by
    refine SlotTable.lookup_of_live ((entry_of_dir hp).mp hent) ?_
      (fun hc => absurd hc (by decide))
    intro b hb j hlive
    obtain rfl : b = 0 := by omega
    have hname := (((entry_of_dir hp).mpr hlive).inj (h.dot ⟨slots, hp⟩)).1
    exact absurd hname (by decide)
  rw [Fs.lookup, hp]
  simp only [lookupSlots, hlook, Option.getD_some]

theorem Rooted.creat_name (h : fs.Rooted) (hreg : fs.Regular)
    (hent : fs.Enters p name slots slots') : name.bytes ≠ Name.dot.bytes ∧ name.bytes ≠ Name.dotdot.bytes := by
  have hdir : fs.IsDir p := ⟨slots, hent.parent⟩
  have hmiss : ∀ i, fs.Entry p 0 name.bytes i ∨ fs.Entry p 1 name.bytes i → name.bytes = marker := by
    intro i hi
    by_contra hne
    exact hi.elim (hreg.not_entry_of_miss hent.parent hent.miss hne)
      (hreg.not_entry_of_miss hent.parent hent.miss hne)
  constructor
  · intro hc
    have := hmiss p (Or.inl (hc ▸ h.dot hdir))
    rw [hc] at this
    exact absurd this (by decide)
  · intro hc
    obtain ⟨q, hq, _⟩ := h.dotdot hdir
    have := hmiss q (Or.inr (hc ▸ hq))
    rw [hc] at this
    exact absurd this (by decide)

/-- A creation of a known type. -/
theorem Rooted.create (h : fs.Rooted) (hreg : fs.Regular) (hent : fs.Enters p name slots slots')
    (hfs' : fs' = Function.update (Function.update fs p (some (.dir slots'))) fs.freeInum
      (some (newNode type fs.freeInum p))) : fs'.Rooted := by
  obtain ⟨hdot, hdotdot⟩ := h.creat_name hreg hent
  obtain ⟨a, hbefore, hfresh, hstore⟩ := hent.entry_store
  have hfree := (freeInum_spec hent.free).2
  have hiff := hent.entry_create type
  rw [← hfs'] at hiff
  have hold : ∀ {d b n j}, fs.Entry d b n j → fs'.Entry d b n j :=
    fun he => (hiff _ _ _ _).mpr (Or.inr ((hstore _ _ _ _).mpr (Or.inr he)))
  have hnew : fs'.Entry p a name.bytes fs.freeInum :=
    (hiff _ _ _ _).mpr (Or.inr ((hstore _ _ _ _).mpr (Or.inl ⟨rfl, rfl, rfl, rfl⟩)))
  -- the dot entries of the parent keep the new one out of the first two slots
  have ha : 2 ≤ a := by
    have hdir : fs.IsDir p := ⟨slots, hent.parent⟩
    rcases a with _ | _ | a
    · exact absurd (h.dot hdir) (hfresh _ _)
    · obtain ⟨q, hq, _⟩ := h.dotdot hdir
      exact absurd hq (hfresh _ _)
    · omega
  have hcases : ∀ {d b n j}, fs'.Entry d b n j → 2 ≤ b →
      (d = p ∧ b = a ∧ n = name.bytes ∧ j = fs.freeInum) ∨ fs.Entry d b n j := by
    intro d b n j he hb
    rcases (hiff d b n j).mp he with ⟨_, _, ⟨rfl, _⟩ | ⟨rfl, _⟩⟩ | hmid
    · omega
    · omega
    · exact (hstore d b n j).mp hmid
  have hzero : fs.freeInum ≠ 0 := by
    intro hc
    obtain ⟨l, hl⟩ := h.root
    rw [hc, hl] at hfree
    exact absurd hfree (by simp)
  have halloc : ∀ {j}, fs' j ≠ none ↔ fs j ≠ none ∨ j = fs.freeInum := by
    intro j
    rw [hfs']
    by_cases hj : j = fs.freeInum
    · simp [hj]
    · by_cases hjp : j = p
      · simp [hjp, hent.parent, Ne.symm hent.inum_ne]
      · simp [hj, hjp]
  have hdirs : ∀ {d}, fs'.IsDir d → fs.IsDir d ∨ (d = fs.freeInum ∧ type = mfsDirectory) := by
    rintro d ⟨l, hl⟩
    rw [hfs'] at hl
    by_cases hd : d = fs.freeInum
    · subst hd
      rw [Function.update_self, Option.some.injEq, newNode] at hl
      split at hl
      · rename_i htype
        exact Or.inr ⟨rfl, htype⟩
      · exact absurd hl (by simp)
    · rw [Function.update_of_ne hd] at hl
      by_cases hdp : d = p
      · exact Or.inl ⟨slots, hdp ▸ hent.parent⟩
      · rw [Function.update_of_ne hdp] at hl
        exact Or.inl ⟨l, hl⟩
  have hheld : ∀ {q j}, fs.Holds q j → fs'.Holds q j := by
    rintro q j ⟨b, n, hb, he⟩
    exact ⟨b, n, hb, hold he⟩
  have hfreshTarget : ∀ {d b n}, 2 ≤ b → ¬ fs.Entry d b n fs.freeInum :=
    fun hb he => (h.live he hb).1 hfree
  constructor
  case root => exact (hold (h.dot h.root)).isDir
  case dot =>
    intro d hd
    rcases hdirs hd with hd | ⟨rfl, htype⟩
    · exact hold (h.dot hd)
    · exact (hiff _ _ _ _).mpr (Or.inl ⟨htype, rfl, Or.inl ⟨rfl, rfl, rfl⟩⟩)
  case dotdot =>
    intro d hd
    rcases hdirs hd with hd | ⟨rfl, htype⟩
    · obtain ⟨q, hq, hroot, hother⟩ := h.dotdot hd
      exact ⟨q, hold hq, hroot, fun hne => hheld (hother hne)⟩
    · refine ⟨p, (hiff _ _ _ _).mpr (Or.inl ⟨htype, rfl, Or.inr ⟨rfl, rfl, rfl⟩⟩), ?_, ?_⟩
      · exact fun hc => absurd hc hzero
      · exact fun _ => ⟨a, name.bytes, ha, hnew⟩
  case names =>
    intro d b n j he hb
    rcases hcases he hb with ⟨_, _, rfl, _⟩ | he
    · exact ⟨hdot, hdotdot⟩
    · exact h.names he hb
  case live =>
    intro d b n j he hb
    rcases hcases he hb with ⟨_, _, _, rfl⟩ | he
    · exact ⟨halloc.mpr (Or.inr rfl), hzero⟩
    · exact ⟨halloc.mpr (Or.inl (h.live he hb).1), (h.live he hb).2⟩
  case named =>
    intro j hj hne
    rcases halloc.mp hj with hj | rfl
    · obtain ⟨q, hq⟩ := h.named hj hne
      exact ⟨q, hheld hq⟩
    · exact ⟨p, a, name.bytes, ha, hnew⟩
  case once =>
    intro d e b c n m j he he' hb hc
    rcases hcases he hb with ⟨rfl, rfl, _, rfl⟩ | he <;>
      rcases hcases he' hc with ⟨hd, hba, _, hj⟩ | he'
    · exact ⟨hd.symm, hba.symm⟩
    · exact absurd he' (hfreshTarget hc)
    · subst hj
      exact absurd he (hfreshTarget hb)
    · exact h.once he he' hb hc

/-- A directory that was accepted for removal has no entry among slots `2..127`. -/
theorem Removes.child_empty (h : fs.Removes p name slots i) (hin : inFirst slots name = true)
    {a : Nat} {n : List UInt8} {j : Int32} (hent : fs.Entry i a n j) (ha : 2 ≤ a) : 128 ≤ a := by
  obtain ⟨l, hl, hlive⟩ := hent
  have hacc := h.accepted hin
  have hchild : fs.child slots i = .dir l := by rw [child, hl, Option.getD_some]
  rw [hchild] at hacc
  have hempty : looksEmpty l = true := by simpa [refuses] using hacc
  by_contra hlt
  rw [looksEmpty, List.all_eq_true] at hempty
  have hmem : some (n, j) ∈ (l.take 128).drop 2 := by
    refine List.mem_of_getElem? (i := a - 2) ?_
    rw [List.getElem?_drop, List.getElem?_take, if_pos (by omega), Nat.add_sub_cancel' ha]
    exact hlive
  exact absurd (hempty _ hmem) (by simp)

theorem Rooted.remove (h : fs.Rooted) (hreg : fs.Regular) (hrem : fs.Removes p name slots i)
    (htidy : fs.Tidy (.unlink p name))
    (hfs' : fs' = Function.update (Function.update fs p (some (.dir (clearIn slots name)))) i none) :
    fs'.Rooted := by
  obtain ⟨hdot, hdotdot, hin, hdne, hpast⟩ := htidy slots i hrem
  have hne : ∀ m : Name, name ≠ m → name.bytes ≠ m.bytes := fun m hm hc => hm (Name.ext hc)
  obtain ⟨a, ha128, hentry⟩ := hrem.entry_first hin
  have ha := h.two_le hentry (hne _ hdot) (hne _ hdotdot)
  obtain ⟨halive, hi0⟩ := h.live hentry ha
  have hiff := hrem.entry_iff
  rw [← hfs'] at hiff
  -- the directory that goes has nothing but its dot entries
  have hchild : ∀ {b n j}, fs.Entry i b n j → b < 2 := by
    intro b n j he
    by_contra hb
    exact hpast b n j (hrem.child_empty hin he (by omega)) he
  have hpi : p ≠ i := by
    rintro rfl
    exact absurd (hchild hentry) (by omega)
  -- exactly one entry goes
  have honly : ∀ {b j}, b < 128 → fs.Entry p b name.bytes j → b = a := by
    intro b j hb he
    by_cases hn : name.bytes = marker
    · have hname : name = Name.dne := by
        by_contra hc
        exact hne _ hc hn
      exact hdne hname b a j i hb ha128 (hn ▸ he) (hn ▸ hentry)
    · exact hreg.unique he hentry hn
  have hold : ∀ {d b n j}, fs'.Entry d b n j → fs.Entry d b n j :=
    fun he => ((hiff _ _ _ _).mp he).2.1
  have hkeep : ∀ {d b n j}, fs.Entry d b n j → d ≠ i → j ≠ i → fs'.Entry d b n j := by
    intro d b n j he hd hj
    refine (hiff d b n j).mpr ⟨hd, he, ?_⟩
    rintro ⟨rfl, hb, rfl⟩
    obtain rfl := honly hb he
    exact hj (he.inj hentry).2
  have hkeepDot : ∀ {d b n j}, fs.Entry d b n j → d ≠ i → b < 2 → fs'.Entry d b n j := by
    intro d b n j he hd hb
    refine (hiff d b n j).mpr ⟨hd, he, ?_⟩
    rintro ⟨rfl, _, rfl⟩
    have := honly (by omega) he
    omega
  have hdirs : ∀ {d}, fs'.IsDir d → d ≠ i ∧ fs.IsDir d := by
    rintro d ⟨l, hl⟩
    rw [hfs'] at hl
    by_cases hd : d = i
    · rw [hd, Function.update_self] at hl
      exact absurd hl (by simp)
    · rw [Function.update_of_ne hd] at hl
      by_cases hdp : d = p
      · exact ⟨hd, slots, hdp ▸ hrem.parent⟩
      · rw [Function.update_of_ne hdp] at hl
        exact ⟨hd, l, hl⟩
  have halloc : ∀ {j}, fs' j ≠ none ↔ j ≠ i ∧ fs j ≠ none := by
    intro j
    rw [hfs']
    by_cases hj : j = i
    · simp [hj]
    · by_cases hjp : j = p
      · simp [hjp, hpi, hrem.parent]
      · simp [hj, hjp]
  have hheld : ∀ {q j}, fs.Holds q j → j ≠ i → fs'.Holds q j := by
    rintro q j ⟨b, n, hb, he⟩ hj
    refine ⟨b, n, hb, hkeep he ?_ hj⟩
    rintro rfl
    exact absurd (hchild he) (by omega)
  constructor
  case root => exact (hkeepDot (h.dot h.root) (Ne.symm hi0) (by omega)).isDir
  case dot =>
    intro d hd
    obtain ⟨hdi, hd⟩ := hdirs hd
    exact hkeepDot (h.dot hd) hdi (by omega)
  case dotdot =>
    intro d hd
    obtain ⟨hdi, hd⟩ := hdirs hd
    obtain ⟨q, hq, hroot, hother⟩ := h.dotdot hd
    exact ⟨q, hkeepDot hq hdi (by omega), hroot, fun hne => hheld (hother hne) hdi⟩
  case names => exact fun he hb => h.names (hold he) hb
  case live =>
    intro d b n j he hb
    obtain ⟨hj, hj0⟩ := h.live (hold he) hb
    refine ⟨halloc.mpr ⟨?_, hj⟩, hj0⟩
    rintro rfl
    -- an entry for the inode that goes is the entry that goes
    obtain ⟨rfl, rfl⟩ := h.once (hold he) hentry hb ha
    have hn := ((hold he).inj hentry).1
    exact ((hiff _ _ _ _).mp he).2.2 ⟨rfl, ha128, hn⟩
  case named =>
    intro j hj hj0
    obtain ⟨hji, hj⟩ := halloc.mp hj
    obtain ⟨q, hq⟩ := h.named hj hj0
    exact ⟨q, hheld hq hji⟩
  case once => exact fun he he' => h.once (hold he) (hold he')

/-- A write changes no entry and no directory. -/
theorem Rooted.write (h : fs.Rooted) {size size' : Int32} {blocks blocks' : Fin 14 → Option Block}
    (hi : fs i = some (.file size blocks))
    (hfs' : fs' = Function.update fs i (some (.file size' blocks'))) : fs'.Rooted := by
  have hiff : ∀ d b n j, Entry (Function.update fs i (some (.file size' blocks'))) d b n j ↔
      fs.Entry d b n j := entry_write hi
  rw [← hfs'] at hiff
  have hheld : ∀ {q j}, fs.Holds q j → fs'.Holds q j := by
    rintro q j ⟨b, n, hb, he⟩
    exact ⟨b, n, hb, (hiff _ _ _ _).mpr he⟩
  have hdirs : ∀ {d}, fs'.IsDir d → fs.IsDir d := by
    rintro d ⟨l, hl⟩
    rw [hfs'] at hl
    by_cases hd : d = i
    · rw [hd, Function.update_self] at hl
      exact absurd hl (by simp)
    · exact ⟨l, by rwa [Function.update_of_ne hd] at hl⟩
  have halloc : ∀ {j}, fs' j ≠ none ↔ fs j ≠ none := by
    intro j
    rw [hfs']
    by_cases hj : j = i
    · simp [hj, hi]
    · simp [hj]
  constructor
  case root => exact ((hiff _ _ _ _).mpr (h.dot h.root)).isDir
  case dot => exact fun hd => (hiff _ _ _ _).mpr (h.dot (hdirs hd))
  case dotdot =>
    intro d hd
    obtain ⟨q, hq, hroot, hother⟩ := h.dotdot (hdirs hd)
    exact ⟨q, (hiff _ _ _ _).mpr hq, hroot, fun hne => hheld (hother hne)⟩
  case names => exact fun he hb => h.names ((hiff _ _ _ _).mp he) hb
  case live =>
    intro d b n j he hb
    obtain ⟨hj, hj0⟩ := h.live ((hiff _ _ _ _).mp he) hb
    exact ⟨halloc.mpr hj, hj0⟩
  case named =>
    intro j hj hj0
    obtain ⟨q, hq⟩ := h.named (halloc.mp hj) hj0
    exact ⟨q, hheld hq⟩
  case once => exact fun he he' => h.once ((hiff _ _ _ _).mp he) ((hiff _ _ _ _).mp he')

/-- **Step.**  Every tidy request keeps the tree rooted. -/
theorem Rooted.change (h : fs.Rooted) (hreg : fs.Regular) (htidy : fs.Tidy r)
    (hc : fs.Change r fs') : fs'.Rooted := by
  cases hc with
  | same => exact h
  | write hi => exact h.write hi rfl
  | store hunknown hent => exact absurd ⟨hunknown, _, _, hent⟩ htidy
  | create _ hent => exact h.create hreg hent rfl
  | remove hrem => exact h.remove hreg hrem htidy rfl

theorem init_rooted : init.Rooted where
  root := ⟨newDir 0 0, rfl⟩
  dot := by
    rintro d ⟨l, hl⟩
    have hd : d = 0 := by
      by_contra hne
      exact absurd (hl.symm.trans (if_neg hne)) (by simp)
    exact init_entry.mpr ⟨hd, Or.inl ⟨rfl, rfl, hd⟩⟩
  dotdot := by
    rintro d ⟨l, hl⟩
    have hd : d = 0 := by
      by_contra hne
      exact absurd (hl.symm.trans (if_neg hne)) (by simp)
    exact ⟨0, init_entry.mpr ⟨hd, Or.inr ⟨rfl, rfl, rfl⟩⟩, fun _ => rfl, fun hne => absurd hd hne⟩
  names := by
    intro p a n i h ha
    obtain ⟨_, ⟨rfl, _⟩ | ⟨rfl, _⟩⟩ := init_entry.mp h <;> omega
  live := by
    intro p a n i h ha
    obtain ⟨_, ⟨rfl, _⟩ | ⟨rfl, _⟩⟩ := init_entry.mp h <;> omega
  named := fun hi hne => absurd (if_neg hne) hi
  once := by
    intro p q a b n m i h _ ha
    obtain ⟨_, ⟨rfl, _⟩ | ⟨rfl, _⟩⟩ := init_entry.mp h <;> omega

end Rooted

end Fs

/-! ## Runs of the server -/

/-- A turn that keeps the tree rooted. -/
def Orderly (s : Server) (x : Turn) : Prop := Tolerated s x.1 ∧ s.tree.Tidy x.1

/-- What orderly turns keep. -/
structure Sound (s : Server) : Prop where
  wf : WF s
  regular : s.tree.Regular
  rooted : s.tree.Rooted

theorem format_sound (stack : Directory) : Sound (format stack) := by
  obtain ⟨hwf, htree, _⟩ := format_spec stack
  exact ⟨hwf, by rw [htree]; exact Fs.init_regular, by rw [htree]; exact Fs.init_rooted⟩

theorem Sound.turn {s : Server} (h : Sound s) {x : Turn} (hok : Orderly s x) : Sound (turn s x) := by
  refine ⟨h.wf.turn_tolerated hok.1, h.wf.regular_turn h.regular hok.1, ?_⟩
  rcases h.wf.tolerated_cases hok.1 with hadm | hquiet
  · rw [(h.wf.turn_refines hadm).tree_eq]
    exact h.rooted.change h.regular hok.2 (s.tree.exec_change x.1)
  · rw [hquiet.tree_eq]
    exact h.rooted

theorem Sound.run {stack : Directory} {xs : List Turn} {s : Server}
    (hrun : Run Linux.turn Orderly (format stack) xs s) : Sound s :=
  hrun.invariant (fun _ _ h hok => Sound.turn h hok) (format_sound stack)

/-- Entries that are not called `"."` or `".."` are those from slot 2 on. -/
theorem Sound.holds_iff {s : Server} (h : Sound s) {p i : Int32} :
    s.tree.Holds p i ↔
      ∃ k e n, n ≠ Name.dot.bytes ∧ n ≠ Name.dotdot.bytes ∧ s.HasEntry p k e n i := by
  constructor
  · rintro ⟨a, n, ha, hent⟩
    obtain ⟨hdot, hdotdot⟩ := h.rooted.names hent ha
    obtain ⟨k, e, _, hhas⟩ := h.wf.exists_hasEntry hent
    exact ⟨k, e, n, hdot, hdotdot, hhas⟩
  · rintro ⟨k, e, n, hdot, hdotdot, hhas⟩
    have hent := h.wf.hasEntry_iff.mp hhas
    exact ⟨_, n, h.rooted.two_le hent hdot hdotdot, hent⟩

/-- **Namespace integrity.**  In every state that orderly requests lead to from a fresh image, every
live entry names an allocated inode, and every allocated inode but the root is named by exactly one
live entry other than the dot entries. -/
theorem namespace_integrity {stack : Directory} {xs : List Turn} {s : Server}
    (hrun : Run turn Orderly (format stack) xs s) :
    (∀ p k e n i, s.HasEntry p k e n i → s.Allocated i) ∧
      ∀ i, s.Allocated i → i ≠ 0 → ∃! t : Int32 × Fin 14 × Fin 128,
        ∃ n, n ≠ Name.dot.bytes ∧ n ≠ Name.dotdot.bytes ∧ s.HasEntry t.1 t.2.1 t.2.2 n i := by
  have h := Sound.run hrun
  constructor
  · intro p k e n i hhas
    exact allocated_iff.mpr (h.rooted.target (h.wf.hasEntry_iff.mp hhas))
  · intro i ha hi0
    obtain ⟨p, hp⟩ := h.rooted.named (allocated_iff.mp ha) hi0
    obtain ⟨k, e, n, hdot, hdotdot, hhas⟩ := h.holds_iff.mp hp
    refine ⟨(p, k, e), ⟨n, hdot, hdotdot, hhas⟩, ?_⟩
    rintro ⟨p', k', e'⟩ ⟨n', hdot', hdotdot', hhas'⟩
    have hent := h.wf.hasEntry_iff.mp hhas
    have hent' := h.wf.hasEntry_iff.mp hhas'
    obtain ⟨rfl, hslot⟩ := h.rooted.once hent' hent (h.rooted.two_le hent' hdot' hdotdot')
      (h.rooted.two_le hent hdot hdotdot)
    simp only at hslot
    have hk : k' = k := Fin.ext (by omega)
    have he : e' = e := Fin.ext (by omega)
    rw [hk, he]

/-- A creation of a known type on a fresh image is orderly. -/
theorem orderly_creat_dir : Orderly (format (default : Stack).direct)
    (.creat 0 mfsDirectory ⟨[97], by decide, by decide⟩, default) := by
  obtain ⟨hwf, htree, _⟩ := format_spec (default : Stack).direct
  have hok : Admitted (format (default : Stack).direct)
      (.creat 0 mfsDirectory ⟨[97], by decide, by decide⟩, default) := by
    refine hwf.admitted_of_tree (Or.inr (by rw [htree]; decide +kernel)) ?_
    rw [format_eq]
    decide
  exact ⟨hwf.tolerated_of_admitted hok, fun hc => absurd hc.1 (by decide)⟩

theorem namespace_integrity_creat :
    ∃ s, Run turn Orderly (format (default : Stack).direct)
        [(.creat 0 mfsDirectory ⟨[97], by decide, by decide⟩, default)] s ∧
      ∀ p k e n i, s.HasEntry p k e n i → s.Allocated i := by
  have hrun : Run turn Orderly (format (default : Stack).direct) [_] _ :=
    Run.cons orderly_creat_dir (Run.nil _)
  exact ⟨_, hrun, (namespace_integrity hrun).1⟩

/-- A fresh image, and a creation of type 7: its entry names the free inode 1. -/
theorem not_namespace_integrity :
    ¬ ∀ (xs : List Turn) (s : Server),
      Run turn (fun _ _ => True) (format (default : Stack).direct) xs s →
      ∀ p k e n i, s.HasEntry p k e n i → s.Allocated i := by
  intro hclaim
  obtain ⟨hwf, htree, _⟩ := format_spec (default : Stack).direct
  have hok : Admitted (format (default : Stack).direct)
      (.creat 0 7 ⟨[97], by decide, by decide⟩, default) := by
    refine hwf.admitted_of_tree (Or.inr (by rw [htree]; decide +kernel)) ?_
    rw [format_eq]
    decide
  have href := hwf.turn_refines hok
  have hsome : (addEntry (newDir 0 0) ⟨[97], by decide, by decide⟩ Fs.init.freeInum).isSome = true := by
    decide +kernel
  obtain ⟨slots', hadd⟩ := Option.isSome_iff_exists.mp hsome
  have hent : Fs.init.Enters 0 ⟨[97], by decide, by decide⟩ (newDir 0 0) slots' :=
    ⟨rfl, by decide +kernel, by decide +kernel, hadd⟩
  obtain ⟨a, _, _, hiff⟩ := hent.entry_store
  have hstored : (turn (format (default : Stack).direct)
      (.creat 0 7 ⟨[97], by decide, by decide⟩, default)).tree =
        Function.update Fs.init 0 (some (.dir slots')) := by
    rw [href.tree_eq, htree, Fs.exec, hent.creat_eq, if_pos (by decide)]
  obtain ⟨k, e, _, hhas⟩ := href.wf.exists_hasEntry (p := 0) (a := a) (n := [97])
    (i := Fs.init.freeInum) (by rw [hstored]; exact (hiff _ _ _ _).mpr (Or.inl ⟨rfl, rfl, rfl, rfl⟩))
  have halloc := hclaim _ _ (Run.cons trivial (Run.nil _)) 0 k e _ _ hhas
  rw [allocated_iff, hstored, Function.update_of_ne hent.inum_ne] at halloc
  exact halloc (Fs.freeInum_spec hent.free).2

/-- **Dot entries.**  In every state that orderly requests lead to, the root is an allocated
directory, `lookup_server` finds `"."` in every directory as the directory itself, and `".."` as the
one directory that holds an entry for it (for the root, itself). -/
theorem dots_survive {stack : Directory} {xs : List Turn} {s : Server}
    (hrun : Run turn Orderly (format stack) xs s) :
    (s.Allocated 0 ∧ (s.inode 0).type = mfsDirectory) ∧
      ∀ d, s.Allocated d → (s.inode d).type = mfsDirectory → ∀ st,
        (lookupServer s d Name.dot st).1 = d ∧
          ∃ p, (lookupServer s d Name.dotdot st).1 = p ∧ (d = 0 → p = 0) ∧
            (d ≠ 0 → (s.Allocated p ∧ (s.inode p).type = mfsDirectory) ∧
              ∀ p', (∃ k e n, n ≠ Name.dot.bytes ∧ n ≠ Name.dotdot.bytes ∧ s.HasEntry p' k e n d) ↔
                p' = p) := by
  have h := Sound.run hrun
  refine ⟨isDir_iff.mp h.rooted.root, ?_⟩
  intro d ha htype st
  have hd : s.tree.IsDir d := isDir_iff.mpr ⟨ha, htype⟩
  obtain ⟨p, hp, hroot, hother⟩ := h.rooted.dotdot hd
  refine ⟨by rw [h.wf.lookup_dir ha, h.rooted.lookup_dot hd], p, ?_, hroot, ?_⟩
  · rw [h.wf.lookup_dir ha, h.rooted.lookup_dotdot hp]
  intro hd0
  have hholds := hother hd0
  refine ⟨isDir_iff.mp ?_, ?_⟩
  · obtain ⟨a, n, _, hent⟩ := hholds
    exact hent.isDir
  · intro p'
    rw [← h.holds_iff]
    refine ⟨?_, fun heq => heq ▸ hholds⟩
    rintro ⟨a, n, ha', hent⟩
    obtain ⟨b, m, hb, hent'⟩ := hholds
    exact (h.rooted.once hent hent' ha' hb).1

theorem dots_survive_creat :
    ∃ s, Run turn Orderly (format (default : Stack).direct)
        [(.creat 0 mfsDirectory ⟨[97], by decide, by decide⟩, default)] s ∧
      s.Allocated 0 ∧ (s.inode 0).type = mfsDirectory := by
  have hrun : Run turn Orderly (format (default : Stack).direct) [_] _ :=
    Run.cons orderly_creat_dir (Run.nil _)
  exact ⟨_, hrun, (dots_survive hrun).1⟩

/-- A fresh image, and the removal of `"."` from the root: the root is given back. -/
theorem not_dots_survive :
    ¬ ∀ (xs : List Turn) (s : Server),
      Run turn (fun s x => s.Allocated x.1.inum) (format (default : Stack).direct) xs s →
      s.Allocated 0 := by
  intro hclaim
  obtain ⟨hwf, htree, _⟩ := format_spec (default : Stack).direct
  have halloc : (format (default : Stack).direct).Allocated 0 := by
    rw [allocated_iff, htree]
    exact Option.some_ne_none _
  have hok : Admitted (format (default : Stack).direct) (.unlink 0 Name.dot, default) := by
    refine hwf.admitted_of_tree (Or.inr (by rw [htree]; decide +kernel)) ?_
    rw [format_eq]
    decide
  have hgone := hclaim [(.unlink 0 Name.dot, default)] _ (Run.cons halloc (Run.nil _))
  rw [allocated_iff, (hwf.turn_refines hok).tree_eq, htree, ← Option.isSome_iff_ne_none] at hgone
  exact absurd hgone (by decide +kernel)

end Linux
end LfsXv6
