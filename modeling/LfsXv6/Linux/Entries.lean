import LfsXv6.Linux.Serving

/-!
# Entries — the directory entries of the file system, and how a request changes them

`fs.Entry p q n i` says that slot `q` of directory `p` holds the name `n` for the inode `i`.  Every
request changes the entries in one of three ways: nothing, one more entry in a directory (and perhaps
a new directory with its two dot entries), or the entries of one name gone from a first block together
with the inode they named.
-/

namespace LfsXv6
namespace Linux

open Lib

namespace Fs

/-- Slot `q` of directory `p` holds the entry `(n, i)`. -/
def Entry (fs : Fs) (p : Int32) (q : Nat) (n : List UInt8) (i : Int32) : Prop :=
  ∃ slots, fs p = some (.dir slots) ∧ SlotTable.Live slots q n i

/-- The slot itself, to be evaluated. -/
def slotAt (fs : Fs) (p : Int32) (q : Nat) : Option DirSlot :=
  match fs p with
  | some (.dir slots) => slots[q]?
  | _ => none

def IsDir (fs : Fs) (d : Int32) : Prop := ∃ slots, fs d = some (.dir slots)

section Entry

variable {fs : Fs} {p q d i : Int32} {slots : List DirSlot} {n n' : List UInt8} {a : Nat} {j : Int32}

theorem Entry.isDir (h : fs.Entry p a n i) : fs.IsDir p := by
  obtain ⟨slots, hp, _⟩ := h
  exact ⟨slots, hp⟩

theorem Entry.inj (h : fs.Entry p a n i) (h' : fs.Entry p a n' j) : n = n' ∧ i = j := by
  obtain ⟨slots, hp, hlive⟩ := h
  obtain ⟨slots', hp', hlive'⟩ := h'
  rw [hp, Option.some.injEq, Node.dir.injEq] at hp'
  subst hp'
  exact hlive.inj hlive'

theorem entry_of_dir (hp : fs p = some (.dir slots)) :
    fs.Entry p a n i ↔ SlotTable.Live slots a n i := by
  constructor
  · rintro ⟨slots', hp', hlive⟩
    rw [hp, Option.some.injEq, Node.dir.injEq] at hp'
    exact hp' ▸ hlive
  · exact fun hlive => ⟨slots, hp, hlive⟩

theorem entry_of_slotAt (h : fs.slotAt p a = some (some (n, i))) : fs.Entry p a n i := by
  rw [slotAt] at h
  split at h
  · rename_i slots hp
    exact ⟨slots, hp, h⟩
  · exact absurd h (by simp)

theorem not_entry_of_none (hp : fs p = none) : ¬ fs.Entry p a n i := by
  rintro ⟨slots, hp', _⟩
  rw [hp] at hp'
  exact absurd hp' (by simp)

theorem entry_congr {fs' : Fs} (h : fs' p = fs p) : fs'.Entry p a n i ↔ fs.Entry p a n i := by
  rw [Entry, Entry, h]

end Entry

end Fs

/-! ## Slots -/

section Slots

variable {slots slots' : List DirSlot} {name : Name} {i j : Int32} {n : List UInt8} {a : Nat}

/-- A directory with a new entry: the entry stands in a slot in front of which nothing is free. -/
theorem live_addEntry (h : addEntry slots name i = some slots') :
    ∃ a, (∀ b < a, ∃ n j, SlotTable.Live slots b n j) ∧ (∀ n j, ¬ SlotTable.Live slots a n j) ∧
      ∀ b n j, SlotTable.Live slots' b n j ↔
        (b = a ∧ n = name.bytes ∧ j = i) ∨ SlotTable.Live slots b n j := by
  rw [addEntry] at h
  cases hins : SlotTable.insert (name.bytes, i) slots with
  | some l =>
      rw [hins, Option.some.injEq] at h
      subst h
      exact SlotTable.live_insert hins
  | none =>
      rw [hins] at h
      simp only at h
      split at h
      swap
      · exact absurd h (by simp)
      rw [Option.some.injEq] at h
      have hfull : none ∉ slots := SlotTable.insert_eq_none_iff.mp hins
      refine ⟨slots.length, ?_, fun n j hlive => Nat.lt_irrefl _ hlive.lt_length, ?_⟩
      · intro b hb
        cases hsl : slots[b] with
        | none => exact absurd (hsl ▸ List.getElem_mem hb) hfull
        | some y => exact ⟨y.1, y.2, by rw [SlotTable.Live, List.getElem?_eq_getElem hb, hsl]⟩
      · intro b n j
        subst h
        rcases Nat.lt_trichotomy b slots.length with hlt | rfl | hgt
        · rw [SlotTable.live_append_left hlt]
          simp [Nat.ne_of_lt hlt]
        · rw [SlotTable.live_append_right (Nat.le_refl _), Nat.sub_self]
          simp [SlotTable.Live, eq_comm]
        · obtain ⟨c, rfl⟩ : ∃ c, b = slots.length + (c + 1) := ⟨b - slots.length - 1, by omega⟩
          have hlate : ¬ SlotTable.Live slots (slots.length + (c + 1)) n j :=
            fun hlive => absurd hlive.lt_length (by omega)
          rw [SlotTable.live_append_right (by omega), Nat.add_sub_cancel_left,
            SlotTable.live_cons_succ]
          refine ⟨fun hlive => absurd hlive SlotTable.not_live_replicate, ?_⟩
          rintro (⟨hc, _⟩ | hlive)
          · omega
          · exact absurd hlive hlate

theorem live_newDir {d p : Int32} :
    SlotTable.Live (newDir d p) a n j ↔
      (a = 0 ∧ n = Name.dot.bytes ∧ j = d) ∨ (a = 1 ∧ n = Name.dotdot.bytes ∧ j = p) := by
  rcases a with _ | _ | a
  · rw [newDir, SlotTable.live_cons_zero]
    simp [eq_comm]
  · rw [newDir, SlotTable.live_cons_succ, SlotTable.live_cons_zero]
    simp [eq_comm]
  · rw [newDir, SlotTable.live_cons_succ, SlotTable.live_cons_succ]
    refine ⟨fun hlive => absurd hlive SlotTable.not_live_replicate, ?_⟩
    rintro (⟨hc, _⟩ | ⟨hc, _⟩) <;> omega

theorem inFirst_of_live (h : SlotTable.Live slots a name.bytes i) (ha : a < 128) :
    inFirst slots name = true := by
  rw [inFirst, List.any_eq_true]
  refine ⟨some (name.bytes, i), ?_, by simp [SlotTable.label]⟩
  exact List.mem_of_getElem? (i := a) (by rw [List.getElem?_take, if_pos ha, h])

theorem length_clearIn : (clearIn slots name).length = slots.length := by
  rw [clearIn]
  split
  · simp only [clearFirst, SlotTable.clear, List.length_append, List.length_map, List.length_take,
      List.length_drop]
    omega
  · rfl

/-- Removal frees the slots of that name among the first 128. -/
theorem live_clearIn :
    SlotTable.Live (clearIn slots name) a n i ↔
      SlotTable.Live slots a n i ∧ ¬ (a < 128 ∧ n = name.bytes) := by
  rw [clearIn]
  split
  · have hlen : (SlotTable.clear marker name.bytes (slots.take 128)).length =
        (slots.take 128).length := by rw [SlotTable.clear, List.length_map]
    have hsplit : SlotTable.Live slots a n i ↔
        SlotTable.Live (slots.take 128 ++ slots.drop 128) a n i := by rw [List.take_append_drop]
    rw [clearFirst, hsplit]
    by_cases ha : a < (slots.take 128).length
    · have hlt : a < 128 := by
        rw [List.length_take] at ha
        omega
      rw [SlotTable.live_append_left (by omega), SlotTable.live_append_left ha,
        SlotTable.live_clear]
      simp [hlt]
    · rw [SlotTable.live_append_right (by omega), SlotTable.live_append_right (by omega), hlen]
      refine ⟨fun hlive => ⟨hlive, ?_⟩, And.left⟩
      rintro ⟨hlt, _⟩
      have hrange := hlive.lt_length
      rw [List.length_drop, List.length_take] at hrange
      rw [List.length_take] at ha
      omega
  · rename_i hnot
    refine ⟨fun hlive => ⟨hlive, ?_⟩, And.left⟩
    rintro ⟨hlt, rfl⟩
    exact hnot (inFirst_of_live hlive hlt)

end Slots

/-! ## What a request does to the entries -/

namespace Fs

section Change

variable {fs fs' : Fs} {p type d i j : Int32} {name : Name} {slots slots' : List DirSlot}
  {n : List UInt8} {a b : Nat}

/-- A creation that stores its entry, whether or not the type is accepted. -/
theorem Enters.entry_store (h : fs.Enters p name slots slots') :
    ∃ a, (∀ b < a, ∃ n j, fs.Entry p b n j) ∧ (∀ n j, ¬ fs.Entry p a n j) ∧
      ∀ d b n j, Entry (Function.update fs p (some (.dir slots'))) d b n j ↔
        (d = p ∧ b = a ∧ n = name.bytes ∧ j = fs.freeInum) ∨ fs.Entry d b n j := by
  obtain ⟨a, hbefore, hfree, hlive⟩ := live_addEntry h.add
  refine ⟨a, ?_, ?_, ?_⟩
  · intro b hb
    obtain ⟨n, j, hb'⟩ := hbefore b hb
    exact ⟨n, j, (entry_of_dir h.parent).mpr hb'⟩
  · intro n j hent
    exact hfree n j ((entry_of_dir h.parent).mp hent)
  · intro d b n j
    by_cases hd : d = p
    · subst hd
      rw [entry_of_dir (Function.update_self ..), hlive, entry_of_dir h.parent]
      simp
    · rw [entry_congr (Function.update_of_ne hd _ _)]
      simp [hd]

/-- The inode that a creation adds. -/
theorem Enters.entry_create (h : fs.Enters p name slots slots') (type d : Int32) (b : Nat)
    (n : List UInt8) (j : Int32) :
    Entry (Function.update (Function.update fs p (some (.dir slots'))) fs.freeInum
        (some (newNode type fs.freeInum p))) d b n j ↔
      (type = mfsDirectory ∧ d = fs.freeInum ∧
        ((b = 0 ∧ n = Name.dot.bytes ∧ j = fs.freeInum) ∨
          (b = 1 ∧ n = Name.dotdot.bytes ∧ j = p))) ∨
        Entry (Function.update fs p (some (.dir slots'))) d b n j := by
  by_cases hd : d = fs.freeInum
  · subst hd
    have hnone : Function.update fs p (some (Node.dir slots')) fs.freeInum = none := by
      rw [Function.update_of_ne h.inum_ne]
      exact (freeInum_spec h.free).2
    simp only [not_entry_of_none hnone, or_false, true_and]
    by_cases htype : type = mfsDirectory
    · have hdir : newNode type fs.freeInum p = .dir (newDir fs.freeInum p) := if_pos htype
      rw [hdir, entry_of_dir (Function.update_self ..), live_newDir]
      simp [htype]
    · have hfile : newNode type fs.freeInum p = .file 0 fun _ => none := if_neg htype
      rw [hfile]
      simp only [htype, false_and, iff_false]
      rintro ⟨l, hl, _⟩
      rw [Function.update_self] at hl
      exact absurd hl (by simp)
  · rw [entry_congr (Function.update_of_ne hd _ _)]
    simp [hd]

/-- A removal that takes an inode away. -/
theorem Removes.entry_iff (h : fs.Removes p name slots i) (d : Int32) (b : Nat) (n : List UInt8)
    (j : Int32) :
    Entry (Function.update (Function.update fs p (some (.dir (clearIn slots name)))) i none) d b n j ↔
      d ≠ i ∧ fs.Entry d b n j ∧ ¬ (d = p ∧ b < 128 ∧ n = name.bytes) := by
  by_cases hd : d = i
  · subst hd
    simp only [not_entry_of_none (Function.update_self ..), ne_eq, not_true_eq_false, false_and]
  · rw [entry_congr (Function.update_of_ne hd _ _)]
    by_cases hp : d = p
    · subst hp
      rw [entry_of_dir (Function.update_self ..), live_clearIn, entry_of_dir h.parent]
      simp [hd]
    · rw [entry_congr (Function.update_of_ne hp _ _)]
      simp [hd, hp]

/-- The entry that a removal follows, and what stands in front of it. -/
theorem Removes.entry (h : fs.Removes p name slots i) :
    ∃ a, fs.Entry p a name.bytes i ∧ ∀ b < a, ∀ j, ¬ fs.Entry p b name.bytes j := by
  obtain ⟨a, hlive, hfirst⟩ := SlotTable.lookup_eq_some_iff.mp h.hit
  refine ⟨a, (entry_of_dir h.parent).mpr hlive, ?_⟩
  intro b hb j hent
  exact hfirst b hb _ ((entry_of_dir h.parent).mp hent) rfl

/-- A name found in the first block is found at an entry of the first block. -/
theorem Removes.entry_first (h : fs.Removes p name slots i) (hin : inFirst slots name = true) :
    ∃ a, a < 128 ∧ fs.Entry p a name.bytes i := by
  obtain ⟨a, hlive, hfirst⟩ := SlotTable.lookup_eq_some_iff.mp h.hit
  refine ⟨a, ?_, (entry_of_dir h.parent).mpr hlive⟩
  by_contra hge
  rw [inFirst, List.any_eq_true] at hin
  obtain ⟨sl, hmem, hname⟩ := hin
  obtain ⟨b, hb⟩ := List.mem_iff_getElem?.mp hmem
  rw [List.getElem?_take] at hb
  split at hb
  · exact hfirst b (by omega) sl hb (by simpa using hname)
  · exact absurd hb (by simp)

theorem entry_write {size size' : Int32} {blocks blocks' : Fin 14 → Option Block}
    (hi : fs i = some (.file size blocks)) (d : Int32) (b : Nat) (n : List UInt8) (j : Int32) :
    Entry (Function.update fs i (some (.file size' blocks'))) d b n j ↔ fs.Entry d b n j := by
  by_cases hd : d = i
  · subst hd
    constructor
    · rintro ⟨l, hl, _⟩
      rw [Function.update_self] at hl
      exact absurd hl (by simp)
    · rintro ⟨l, hl, _⟩
      rw [hi] at hl
      exact absurd hl (by simp)
  · exact entry_congr (Function.update_of_ne hd _ _)

end Change

/-! ## What holds in every run -/

/-- Entries name inode numbers, names other than the marker are unique in a directory, and only a dot
entry names its own directory. -/
structure Regular (fs : Fs) : Prop where
  inRange : ∀ {p a n i}, fs.Entry p a n i → InRange i
  unique : ∀ {p a b n i j}, fs.Entry p a n i → fs.Entry p b n j → n ≠ marker → a = b
  apart : ∀ {p a n i}, fs.Entry p a n i → n ≠ Name.dot.bytes → n ≠ Name.dotdot.bytes → i ≠ p

section Regular

variable {fs fs' : Fs} {p type : Int32} {name : Name} {slots slots' : List DirSlot} {r : Request}

theorem init_entry {d j : Int32} {b : Nat} {n : List UInt8} :
    init.Entry d b n j ↔ d = 0 ∧
      ((b = 0 ∧ n = Name.dot.bytes ∧ j = 0) ∨ (b = 1 ∧ n = Name.dotdot.bytes ∧ j = 0)) := by
  by_cases hd : d = 0
  · subst hd
    rw [entry_of_dir (show init 0 = some (.dir (newDir 0 0)) from rfl), live_newDir]
    simp
  · rw [iff_false_right (fun hc => hd hc.1)]
    exact not_entry_of_none (if_neg hd)

theorem init_regular : init.Regular where
  inRange := by
    intro p a n i h
    obtain ⟨_, ⟨_, _, rfl⟩ | ⟨_, _, rfl⟩⟩ := init_entry.mp h <;> exact zero_inRange
  unique := by
    intro p a b n i j h h' _
    obtain ⟨_, ⟨rfl, rfl, _⟩ | ⟨rfl, rfl, _⟩⟩ := init_entry.mp h <;>
      obtain ⟨_, ⟨rfl, hn, _⟩ | ⟨rfl, hn, _⟩⟩ := init_entry.mp h' <;>
        first | rfl | exact absurd hn (by decide)
  apart := by
    intro p a n i h hdot hdotdot
    obtain ⟨_, ⟨_, hn, _⟩ | ⟨_, hn, _⟩⟩ := init_entry.mp h
    · exact absurd hn hdot
    · exact absurd hn hdotdot

/-- A name that `lookup_server` does not find. -/
theorem Regular.lookup_none (h : fs.Regular) (hp : fs p = some (.dir slots))
    (hmiss : lookupSlots slots name = -1) : SlotTable.lookup marker slots name.bytes = none := by
  cases hlook : SlotTable.lookup marker slots name.bytes with
  | none => rfl
  | some i =>
      rw [lookupSlots, hlook] at hmiss
      obtain ⟨a, hlive, _⟩ := SlotTable.lookup_eq_some_iff.mp hlook
      have hr := h.inRange ((entry_of_dir hp).mpr hlive)
      exact absurd hmiss hr.ne_neg_one

theorem Regular.not_entry_of_miss (h : fs.Regular) (hp : fs p = some (.dir slots))
    (hmiss : lookupSlots slots name = -1) (hname : name.bytes ≠ marker) {a : Nat} {i : Int32} :
    ¬ fs.Entry p a name.bytes i := fun hent =>
  SlotTable.not_live_of_lookup (h.lookup_none hp hmiss) hname ((entry_of_dir hp).mp hent)

theorem Regular.store (h : fs.Regular) (hent : fs.Enters p name slots slots') :
    Regular (Function.update fs p (some (.dir slots'))) := by
  obtain ⟨a, _, _, hiff⟩ := hent.entry_store
  constructor
  · intro d b n j he
    rcases (hiff d b n j).mp he with ⟨_, _, _, rfl⟩ | hold
    · exact (freeInum_spec hent.free).1
    · exact h.inRange hold
  · intro d b c n j k he he' hn
    rcases (hiff d b n j).mp he with ⟨rfl, rfl, rfl, _⟩ | hold <;>
      rcases (hiff _ c _ k).mp he' with ⟨hd, hc, hname, _⟩ | hold'
    · exact hc.symm
    · exact absurd hold' (h.not_entry_of_miss hent.parent hent.miss hn)
    · subst hd hname
      exact absurd hold (h.not_entry_of_miss hent.parent hent.miss hn)
    · exact h.unique hold hold' hn
  · intro d b n j he hdot hdotdot
    rcases (hiff d b n j).mp he with ⟨rfl, _, _, rfl⟩ | hold
    · exact hent.inum_ne
    · exact h.apart hold hdot hdotdot

theorem Regular.create (h : fs.Regular) (hent : fs.Enters p name slots slots') (hp : InRange p) :
    Regular (Function.update (Function.update fs p (some (.dir slots'))) fs.freeInum
      (some (newNode type fs.freeInum p))) := by
  have hstore := h.store hent
  have hnone : ∀ {b n j}, ¬ Entry (Function.update fs p (some (.dir slots'))) fs.freeInum b n j := by
    intro b n j
    refine not_entry_of_none ?_
    rw [Function.update_of_ne hent.inum_ne]
    exact (freeInum_spec hent.free).2
  constructor
  · intro d b n j he
    rcases (hent.entry_create type d b n j).mp he with ⟨_, _, ⟨_, _, rfl⟩ | ⟨_, _, rfl⟩⟩ | hold
    · exact (freeInum_spec hent.free).1
    · exact hp
    · exact hstore.inRange hold
  · intro d b c n j k he he' hn
    rcases (hent.entry_create type d b n j).mp he with ⟨_, rfl, hb⟩ | hold <;>
      rcases (hent.entry_create type _ c _ k).mp he' with ⟨_, hd, hc⟩ | hold'
    · rcases hb with ⟨rfl, rfl, _⟩ | ⟨rfl, rfl, _⟩ <;> rcases hc with ⟨rfl, hnm, _⟩ | ⟨rfl, hnm, _⟩ <;>
        first | rfl | exact absurd hnm (by decide)
    · exact absurd hold' hnone
    · exact absurd (hd ▸ hold) hnone
    · exact hstore.unique hold hold' hn
  · intro d b n j he hdot hdotdot
    rcases (hent.entry_create type d b n j).mp he with ⟨_, _, ⟨_, hn, _⟩ | ⟨_, hn, _⟩⟩ | hold
    · exact absurd hn hdot
    · exact absurd hn hdotdot
    · exact hstore.apart hold hdot hdotdot

/-- Every request keeps the entries regular. -/
theorem Regular.change (h : fs.Regular) (hdirs : ∀ p, fs.IsDir p → InRange p)
    (hc : fs.Change r fs') : fs'.Regular := by
  cases hc with
  | same => exact h
  | write hi =>
      exact ⟨fun he => h.inRange ((entry_write hi _ _ _ _).mp he),
        fun he he' => h.unique ((entry_write hi _ _ _ _).mp he) ((entry_write hi _ _ _ _).mp he'),
        fun he => h.apart ((entry_write hi _ _ _ _).mp he)⟩
  | store _ hent => exact h.store hent
  | create _ hent => exact h.create hent (hdirs _ ⟨_, hent.parent⟩)
  | remove hrem =>
      exact ⟨fun he => h.inRange ((hrem.entry_iff _ _ _ _).mp he).2.1,
        fun he he' => h.unique ((hrem.entry_iff _ _ _ _).mp he).2.1
          ((hrem.entry_iff _ _ _ _).mp he').2.1,
        fun he => h.apart ((hrem.entry_iff _ _ _ _).mp he).2.1⟩

end Regular

end Fs

/-! ## Entries on the image -/

theorem allocated_iff {s : Server} {i : Int32} : s.Allocated i ↔ s.tree i ≠ none := by
  rw [Server.Allocated, Ne, Ne, tree_eq_none_iff]

/-- Entry `e` of the used direct block `k` of the allocated directory `p` is live, with name `n` and
inode number `i`. -/
structure Server.HasEntry (s : Server) (p : Int32) (k : Fin 14) (e : Fin 128) (n : List UInt8)
    (i : Int32) : Prop where
  alloc : s.Allocated p
  dir : (s.inode p).type = mfsDirectory
  used : (s.inode p).dpUsed k = 1
  live : i ≠ -1
  inum : (dirAt s.file ((s.inode p).dpointers k)).inums e = i
  name : cstr ((dirAt s.file ((s.inode p).dpointers k)).names e) = n

section Image

variable {s : Server} {p i : Int32} {k : Fin 14} {e : Fin 128} {n : List UInt8}

theorem getElem?_flatMap_blocks {α β : Type} {g : α → List β} (hg : ∀ x, (g x).length = 128)
    (l : List α) (k : Nat) {e : Nat} (he : e < 128) :
    (l.flatMap g)[128 * k + e]? = l[k]?.bind fun x => (g x)[e]? := by
  induction l generalizing k with
  | nil => simp
  | cons x l ih =>
      cases k with
      | zero =>
          rw [List.flatMap_cons, List.getElem?_append_left (by rw [hg]; omega)]
          simp
      | succ k =>
          have hsub : 128 * (k + 1) + e - (g x).length = 128 * k + e := by
            rw [hg]
            omega
          rw [List.flatMap_cons, List.getElem?_append_right (by rw [hg]; omega), hsub, ih,
            List.getElem?_cons_succ]

theorem getElem?_firstBlocks {m : Nat} : (firstBlocks m)[k.val]? = if k.val < m then some k else none := by
  rw [firstBlocks, List.getElem?_take]
  split
  · simp
  · rfl

/-- Slot `128*k + e` of a directory is entry `e` of block `k`. -/
theorem live_dirSlots {f : File} {x : Int32} {m : Inode} (h : DirShape f x m) :
    SlotTable.Live (dirSlots f m) (128 * k + e) n i ↔
      m.dpUsed k = 1 ∧ i ≠ -1 ∧ (dirAt f (m.dpointers k)).inums e = i ∧
        cstr ((dirAt f (m.dpointers k)).names e) = n := by
  rw [SlotTable.Live, dirSlots, getElem?_flatMap_blocks (fun _ => Directory.length_slots) _ _ e.isLt,
    getElem?_firstBlocks, h.used_iff]
  split
  · rename_i hk
    rw [Option.bind_some, getElem?_slots e.isLt, Option.some.injEq, Directory.slot]
    simp only [hk, true_and]
    split
    · rename_i hfree
      simp only [hfree, reduceCtorEq, false_iff]
      rintro ⟨hne, heq, _⟩
      exact hne heq.symm
    · rename_i hlive
      simp only [Option.some.injEq, Prod.mk.injEq]
      constructor
      · rintro ⟨rfl, rfl⟩
        exact ⟨hlive, rfl, rfl⟩
      · rintro ⟨_, rfl, rfl⟩
        exact ⟨rfl, rfl⟩
  · rename_i hk
    simp [hk]

theorem WF.hasEntry_iff (h : WF s) :
    s.HasEntry p k e n i ↔ s.tree.Entry p (128 * k + e) n i := by
  constructor
  · intro hent
    have hnode : s.tree p = some (.dir (dirSlots s.file (s.inode p))) := by
      rw [tree_of_allocated hent.alloc, nodeOf, if_pos hent.dir]
    rw [Fs.entry_of_dir hnode, live_dirSlots ((h.node p hent.alloc).dir hent.dir)]
    exact ⟨hent.used, hent.live, hent.inum, hent.name⟩
  · rintro ⟨slots, hp, hlive⟩
    have ha : s.Allocated p := by
      intro hfree
      rw [tree_eq_none_iff.mpr hfree] at hp
      exact absurd hp (by simp)
    rw [tree_of_allocated ha, nodeOf] at hp
    split at hp
    · rename_i hdir
      rw [Option.some.injEq, Node.dir.injEq] at hp
      subst hp
      obtain ⟨hused, hne, hinum, hname⟩ := (live_dirSlots ((h.node p ha).dir hdir)).mp hlive
      exact ⟨ha, hdir, hused, hne, hinum, hname⟩
    · exact absurd hp (by simp)

/-- Every abstract entry is an entry of some block. -/
theorem WF.exists_hasEntry (h : WF s) {a : Nat} (hent : s.tree.Entry p a n i) :
    ∃ (k : Fin 14) (e : Fin 128), a = 128 * k + e ∧ s.HasEntry p k e n i := by
  have hlt : a < 14 * 128 := by
    obtain ⟨slots, hp, hlive⟩ := hent
    have ha : s.Allocated p := by
      intro hfree
      rw [tree_eq_none_iff.mpr hfree] at hp
      exact absurd hp (by simp)
    rw [tree_of_allocated ha, nodeOf] at hp
    split at hp
    · rename_i hdir
      rw [Option.some.injEq, Node.dir.injEq] at hp
      have hshape := (h.node p ha).dir hdir
      have hlen := hlive.lt_length
      rw [← hp, length_dirSlots _ hshape.nblocks_le] at hlen
      have := hshape.nblocks_le
      omega
    · exact absurd hp (by simp)
  refine ⟨⟨a / 128, by omega⟩, ⟨a % 128, by omega⟩, by simp only; omega, ?_⟩
  rw [h.hasEntry_iff]
  simpa only [Nat.div_add_mod] using hent

theorem isDir_iff {d : Int32} :
    s.tree.IsDir d ↔ s.Allocated d ∧ (s.inode d).type = mfsDirectory := by
  constructor
  · rintro ⟨slots, hd⟩
    have ha : s.Allocated d := by
      intro hfree
      rw [tree_eq_none_iff.mpr hfree] at hd
      exact absurd hd (by simp)
    refine ⟨ha, ?_⟩
    by_contra hfile
    rw [tree_of_allocated ha, nodeOf, if_neg hfile] at hd
    exact absurd hd (by simp)
  · rintro ⟨ha, hdir⟩
    exact ⟨_, by rw [tree_of_allocated ha, nodeOf, if_pos hdir]⟩

theorem WF.inRange_of_isDir (h : WF s) {d : Int32} (hd : s.tree.IsDir d) : InRange d :=
  h.inRange d (isDir_iff.mp hd).1

/-- The entries are regular in every state that tolerated requests lead to. -/
theorem WF.regular_turn (h : WF s) (hreg : s.tree.Regular) {x : Turn} (hok : Tolerated s x.1) :
    (turn s x).tree.Regular := by
  rcases h.tolerated_cases hok with hadm | hquiet
  · rw [(h.turn_refines hadm).tree_eq]
    exact hreg.change (fun p hp => h.inRange_of_isDir hp) (s.tree.exec_change x.1)
  · rw [hquiet.tree_eq]
    exact hreg

/-- `lookup_server` on an allocated directory. -/
theorem WF.lookup_dir (h : WF s) {d : Int32} (hd : s.Allocated d) (name : Name) (st : Stack) :
    (lookupServer s d name st).1 = s.tree.lookup d name := by
  obtain ⟨q, hlook⟩ := h.lookupServer_eq hd name st s.file.pos
  rw [seek_self] at hlook
  rw [hlook]

end Image

end Linux
end LfsXv6
