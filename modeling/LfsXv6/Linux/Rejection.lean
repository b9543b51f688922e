import LfsXv6.Linux.Serving

/-!
# Rejection — requests that are turned down, and what they leave behind

Two questions about replies of `-1`.  Is every request on a number that does not exist turned down
without effect?  Only for numbers out of range: `find_inode` does not look at `imap`.  Does every
request that is turned down leave the server as it was?  All but a creation of an unknown type, which
stores its entry before it looks at the type.
-/

namespace LfsXv6
namespace Linux

open Lib

/-- What an image stores is a matter of its bytes. -/
theorem Unchanged.tree_eq {s t : Server} (h : Unchanged s t) : t.tree = s.tree := by
  have hblock : ∀ b, t.file.blockAt 4096 b = s.file.blockAt 4096 b := by
    intro b
    funext o
    rw [File.blockAt, File.blockAt, h.byte_eq]
  have hinode : inodeAt t.file = inodeAt s.file := funext fun x => by rw [inodeAt, inodeAt, hblock]
  have hdir : dirAt t.file = dirAt s.file := funext fun x => by rw [dirAt, dirAt, hblock]
  have hdata : dataAt t.file = dataAt s.file := funext fun x => by rw [dataAt, dataAt, hblock]
  have hblocks : ∀ n, fileBlocks t.file n = fileBlocks s.file n := by
    intro n
    funext k
    rw [fileBlocks, fileBlocks, hdata]
  funext i
  by_cases ha : s.Allocated i
  · have hat : t.Allocated i := by
      rw [Server.Allocated, h.imap_eq]
      exact ha
    have hnode : t.inode i = s.inode i := by rw [Server.inode, Server.inode, h.imap_eq, hinode]
    rw [tree_of_allocated ha, tree_of_allocated hat, hnode, nodeOf, nodeOf, dirSlots, dirSlots, hdir,
      hblocks]
  · have hat : ¬ t.Allocated i := by
      rw [Server.Allocated, h.imap_eq]
      exact ha
    rw [tree_of_not_allocated ha, tree_of_not_allocated hat]

/-! ## Numbers that do not exist -/

/-- Every request on inode number `i` is answered with `-1` and changes nothing. -/
def Rejects (s : Server) (i : Int32) : Prop :=
  ∀ r st, r.inum = i → (serve s r st).1.inum = -1 ∧ Unchanged s (serve s r st).2

theorem rejects_of_not_inRange {i : Int32} (h : ¬ InRange i) (s : Server) : Rejects s i := by
  intro r st hr
  subst hr
  rw [serve_of_not_inRange h]
  exact ⟨rfl, Unchanged.seek s s.file.pos⟩

/-- `stat_server` accepts every number in range. -/
theorem stat_of_inRange {i : Int32} (h : InRange i) (s : Server) (st : Stack) :
    (serve s (.stat i) st).1.inum = 0 := by
  obtain ⟨node, q, hfind⟩ := findInode_moves s i st.node
  rw [if_pos h] at hfind
  have heq : statServer s i st.response.stat st = (0, ⟨node.type, node.size⟩, s.seek q) := by
    rw [statServer, hfind]
    rfl
  simp only [serve, heq]

/-- **Numbers that do not exist.**  In any state, with the descriptor anywhere, the requests on a
number that does not exist are all turned down without effect exactly when it is out of range. -/
theorem rejects_nonexistent_iff (s : Server) (p : Nat) (i : Int32) :
    (¬ InRange i ∨ s.imap i = -1 → Rejects (s.seek p) i) ↔ ¬ (InRange i ∧ s.imap i = -1) := by
  constructor
  · rintro hrej ⟨hr, hfree⟩
    have hret := (hrej (Or.inr hfree) (.stat i) default rfl).1
    rw [stat_of_inRange hr] at hret
    exact absurd hret (by decide)
  · intro hnot hmissing
    refine rejects_of_not_inRange (fun hr => ?_) _
    exact hnot ⟨hr, hmissing.resolve_left (not_not.mpr hr)⟩

/-- On a fresh image, a `STAT` of the free number 5 is answered with 0. -/
theorem not_rejects_nonexistent :
    ¬ ∀ (xs : List Turn) (s : Server) (p : Nat) (i : Int32),
      Run turn (fun _ _ => True) (format (default : Stack).direct) xs s →
      ¬ InRange i ∨ s.imap i = -1 → Rejects (s.seek p) i := by
  intro hclaim
  have hfree : (format (default : Stack).direct).imap 5 = -1 := by
    rw [format_eq]
    rfl
  have hret := (hclaim [] _ 0 5 (Run.nil _) (Or.inr hfree) (.stat 5) default rfl).1
  rw [stat_of_inRange (by decide)] at hret
  exact absurd hret (by decide)

/-! ## Failed requests -/

/-- A creation of an unknown type that gets as far as storing its entry. -/
def Fs.StoresUnknown (fs : Fs) : Request → Prop
  | .creat p type name => UnknownType type ∧ ∃ slots slots', fs.Enters p name slots slots'
  | _ => False

theorem addEntry_ne {slots slots' : List DirSlot} {name : Name} {i : Int32}
    (h : addEntry slots name i = some slots') : slots' ≠ slots := by
  rw [addEntry] at h
  cases hins : SlotTable.insert (name.bytes, i) slots with
  | some l =>
      rw [hins, Option.some.injEq] at h
      obtain ⟨q, hq, _, rfl⟩ := SlotTable.insert_eq_set hins
      intro hc
      rw [← h] at hc
      have hset : (slots.set q (some (name.bytes, i)))[q]? = some none := by rw [hc, hq]
      rw [List.getElem?_set_self (List.getElem?_eq_some_iff.mp hq).1] at hset
      exact absurd hset (by simp)
  | none =>
      rw [hins] at h
      simp only at h
      split at h
      · rw [Option.some.injEq] at h
        intro hc
        have hlen := congrArg List.length (h.trans hc)
        simp at hlen
      · exact absurd h (by simp)

theorem update_ne_self {fs : Fs} {p : Int32} {slots slots' : List DirSlot}
    (hp : fs p = some (.dir slots)) (hne : slots' ≠ slots) :
    Function.update fs p (some (.dir slots')) ≠ fs := by
  intro hc
  have hval := congrFun hc p
  rw [Function.update_self, hp, Option.some.injEq, Node.dir.injEq] at hval
  exact hne hval

/-- A reply without effect is no creation that stores. -/
theorem Declines.not_storesUnknown {s : Server} {r : Request} {res : Int32 × Server}
    (h : Declines s r res) : ¬ s.tree.StoresUnknown r := by
  obtain ⟨ret, q, _, hexec, _⟩ := h
  intro hstore
  cases r with
  | creat p type name =>
      obtain ⟨hunknown, slots, slots', hent⟩ := hstore
      rw [Fs.exec, hent.creat_eq, if_pos hunknown, Prod.mk.injEq] at hexec
      exact update_ne_self hent.parent (addEntry_ne hent.add) hexec.2
  | lookup _ _ => exact hstore
  | stat _ => exact hstore
  | write _ _ _ => exact hstore
  | read _ _ => exact hstore
  | unlink _ _ => exact hstore

theorem creatNode_fst {p type inum : Int32} {st : Stack} {v : Server} :
    (creatNode p type inum st v).1 = if UnknownType type then -1 else 0 := by
  by_cases hd : type = mfsDirectory
  · subst hd
    rfl
  · by_cases hf : type = mfsRegularFile
    · subst hf
      rfl
    · rw [creatNode_bad hd hf, if_pos ⟨hd, hf⟩]

/-- An entry that was stored is a change, even when the reply is `-1`. -/
theorem Reaches.not_unchanged {s v : Server} {p type : Int32} {name : Name} {st : Stack}
    {res : Int32 × Server} {slots slots' : List DirSlot} {c : Nat}
    (h : Reaches s p type name st res slots slots' v c) (hb : s.Bounded) : ¬ Unchanged s v := by
  intro hsame
  have hnext := h.next
  rw [hsame.next_eq] at hnext
  have hc : c = 0 := by omega
  have hv : v.Bounded := by
    rw [Server.Bounded, hsame.next_eq]
    exact hb
  have htree := (h.stored hv).tree_eq
  rw [hsame.tree_eq] at htree
  exact update_ne_self h.parent (addEntry_ne h.add) htree.symm

/-- One request in a well-formed state. -/
theorem WF.failed_unchanged_iff {s : Server} (h : WF s) {r : Request} (st : Stack)
    (ha : r.Addressed s) :
    ((serve s r st).1.inum = -1 → Unchanged s (serve s r st).2) ↔ ¬ s.tree.StoresUnknown r := by
  have hdeclines : ∀ res : Int32 × Server, Declines s r res →
      ((res.1 = -1 → Unchanged s res.2) ↔ ¬ s.tree.StoresUnknown r) := by
    intro res hdecl
    refine ⟨fun _ => hdecl.not_storesUnknown, fun _ _ => ?_⟩
    obtain ⟨ret, q, rfl, _⟩ := hdecl
    exact Unchanged.seek s q
  cases r with
  | lookup p name =>
      obtain ⟨q, hq⟩ := lookupServer_moves s p name st
      refine ⟨fun _ hc => hc, fun _ _ => ?_⟩
      simp only [serve, hq]
      exact Unchanged.seek s q
  | stat i =>
      obtain ⟨node, q, hfind⟩ := findInode_moves s i st.node
      have hmove : (statServer s i st.response.stat st).2.2 = s.seek q := by
        rw [statServer, hfind]
        simp only
        split <;> rfl
      refine ⟨fun _ hc => hc, fun _ _ => ?_⟩
      simp only [serve, hmove]
      exact Unchanged.seek s q
  | read i block =>
      obtain ⟨b, q, hread⟩ := readServer_moves s i st.response.buffer block st
      refine ⟨fun _ hc => hc, fun _ _ => ?_⟩
      simp only [serve, hread]
      exact Unchanged.seek s q
  | write i buffer block =>
      rcases h.writeServer_cases st ha with hdecl | ⟨k, _, _, heq, _⟩
      · exact hdeclines _ hdecl
      · refine ⟨fun _ hc => hc, fun _ hret => ?_⟩
        simp only [serve, heq] at hret
        exact absurd hret (by decide)
  | unlink p name =>
      rcases h.unlinkServer_cases st ha with hdecl | ⟨hzero, _⟩
      · exact hdeclines _ hdecl
      · refine ⟨fun _ hc => hc, fun _ hret => ?_⟩
        simp only [serve, hzero] at hret
        exact absurd hret (by decide)
  | creat p type name =>
      rcases h.creatServer_cases st ha with hdecl | ⟨slots, slots', v, c, hreach⟩
      · exact hdeclines _ hdecl
      have hent : s.tree.Enters p name slots slots' :=
        { parent := hreach.parent
          miss := hreach.miss
          free := by rw [freeInum_tree]; exact hreach.free.ne_neg_one
          add := by rw [freeInum_tree]; exact hreach.add }
      simp only [serve, hreach.eq, creatNode_fst]
      by_cases hunknown : UnknownType type
      · rw [if_pos hunknown, creatNode_bad hunknown.1 hunknown.2]
        constructor
        · intro hatomic
          exact absurd (hatomic rfl) (hreach.not_unchanged h.bounded)
        · intro hnot
          exact absurd ⟨hunknown, slots, slots', hent⟩ hnot
      · rw [if_neg hunknown]
        refine ⟨fun _ hstore => hunknown hstore.1, fun _ hret => ?_⟩
        exact absurd hret (by decide)

/-- **Failed requests.**  In every state that the tolerated requests lead to from a fresh image, a
request on a number that is out of range or allocated and that is answered with `-1` leaves `imap`,
`next_block` and the image as they were, exactly when it is not a creation of an unknown type that
stores its entry. -/
theorem failed_request_atomic_iff {stack : Directory} {xs : List Turn} {s : Server}
    (hrun : Run turn (fun s x => Tolerated s x.1) (format stack) xs s) {r : Request} {st : Stack}
    (ha : r.Addressed s) :
    ((serve s r st).1.inum = -1 → Unchanged s (serve s r st).2) ↔ ¬ s.tree.StoresUnknown r :=
  (WF.run_tolerated hrun (format_spec stack).1).failed_unchanged_iff st ha

theorem failed_request_atomic_iff_not_empty :
    ∃ s, Run turn (fun s x => Tolerated s x.1) (format (default : Stack).direct)
        [(.creat 0 mfsDirectory ⟨[97], by decide, by decide⟩, default),
          (.creat 1 mfsRegularFile ⟨[98], by decide, by decide⟩, default)] s ∧
      (serve s (.unlink 0 ⟨[97], by decide, by decide⟩) default).1.inum = -1 ∧
      Unchanged s (serve s (.unlink 0 ⟨[97], by decide, by decide⟩) default).2 := by
  obtain ⟨s, hrun, hwf, htree, hnext⟩ := run_of_requests (default : Stack).direct
    [(.creat 0 mfsDirectory ⟨[97], by decide, by decide⟩, default),
      (.creat 1 mfsRegularFile ⟨[98], by decide, by decide⟩, default)] (by decide +kernel) (by decide)
  have hok : Admitted s (.unlink 0 ⟨[97], by decide, by decide⟩, default) :=
    hwf.admitted_of_tree (Or.inr (by rw [htree]; decide +kernel)) (by simp at hnext; omega)
  have hret : (serve s (.unlink 0 ⟨[97], by decide, by decide⟩) default).1.inum = -1 := by
    rw [(hwf.turn_refines hok).ret_eq, htree]
    decide +kernel
  have htol := WF.run_tolerated_of_admitted hrun (format_spec _).1
  exact ⟨s, htol, hret, (failed_request_atomic_iff htol hok.1).mpr id hret⟩

/-- A fresh image, and a creation of type 7. -/
theorem not_failed_request_atomic :
    ¬ ∀ (xs : List Turn) (s : Server) (r : Request) (st : Stack),
      Run turn (fun _ _ => True) (format (default : Stack).direct) xs s → r.Addressed s →
      (serve s r st).1.inum = -1 → Unchanged s (serve s r st).2 := by
  intro hclaim
  obtain ⟨hwf, htree, _⟩ := format_spec (default : Stack).direct
  have ha : Request.Addressed (format (default : Stack).direct)
      (.creat 0 7 ⟨[97], by decide, by decide⟩) := Or.inr (by
    rw [Server.Allocated, format_eq]
    decide)
  have hiff := hwf.failed_unchanged_iff default ha
  have hsome : (addEntry (newDir 0 0) ⟨[97], by decide, by decide⟩ Fs.init.freeInum).isSome = true := by
    decide +kernel
  obtain ⟨slots', hadd⟩ := Option.isSome_iff_exists.mp hsome
  refine hiff.mp (hclaim [] _ _ _ (Run.nil _) ha) ⟨by decide, newDir 0 0, slots', ?_⟩
  rw [htree]
  exact ⟨rfl, by decide +kernel, by decide +kernel, hadd⟩

end Linux
end LfsXv6
