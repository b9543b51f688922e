import LfsXv6.Linux.Serving

/-!
# Restart — stopping the server and starting it again

`start_server` on an existing image loads `imap` and `next_block` from the checkpoint region, and its
descriptor stands behind them.  So a restart is invisible when the region is in step with the globals
and when no later request depends on where the descriptor stands.  The one request that leaves the
region behind is a creation that extends the directory and then fails the type check: it returns
without `update_CR`.
-/

namespace LfsXv6
namespace Linux

open Lib

/-! ## The descriptor is no part of the state -/

section Descriptor

variable {s u : Server} {r : Request} {st : Stack}

/-- On an allocated number `find_inode` seeks before it reads. -/
theorem WF.findInode_seek (h : WF s) {i : Int32} (ha : s.Allocated i) (q : Nat) (node : Inode) :
    findInode (s.seek q) i node = findInode s i node := by
  rw [(h.seek q).findInode_eq (i := i) ha node, h.findInode_eq ha node]
  rfl

/-- Every request looks at the server through `find_inode` first. -/
theorem serve_congr (h : ∀ node, findInode u r.inum node = findInode s r.inum node) :
    serve u r st = serve s r st := by
  have hfind : ∀ i, r.inum = i → ∀ node, findInode u i node = findInode s i node := by
    rintro i rfl
    exact h
  cases r with
  | lookup p name =>
      have heq : lookupServer u p name st = lookupServer s p name st := by
        rw [lookupServer, hfind p rfl, ← lookupServer]
      simp only [serve, heq]
  | stat i =>
      have heq : statServer u i st.response.stat st = statServer s i st.response.stat st := by
        rw [statServer, hfind i rfl, ← statServer]
      simp only [serve, heq]
  | write i buffer block =>
      have heq : writeServer u i buffer block st = writeServer s i buffer block st := by
        unfold writeServer
        rw [hfind i rfl]
      simp only [serve, heq]
  | read i block =>
      have heq : readServer u i st.response.buffer block st =
          readServer s i st.response.buffer block st := by
        unfold readServer
        rw [hfind i rfl]
      simp only [serve, heq]
  | creat p type name =>
      have heq : creatServer u p type name st = creatServer s p type name st := by
        unfold creatServer
        rw [hfind p rfl]
      simp only [serve, heq]
  | unlink p name =>
      have heq : unlinkServer u p name st = unlinkServer s p name st := by
        unfold unlinkServer
        rw [hfind p rfl]
      simp only [serve, heq]

/-- Two servers that differ at most in where the descriptor stands. -/
def SameButPos (s u : Server) : Prop := ∃ q, u = s.seek q

/-- Such servers answer a request alike, and still differ at most in the descriptor afterwards. -/
theorem SameButPos.step (h : SameButPos s u) (hwf : WF s) {x : Turn} (ha : x.1.Addressed s) :
    (serve u x.1 x.2).1 = (serve s x.1 x.2).1 ∧ SameButPos (turn s x) (turn u x) := by
  obtain ⟨q, rfl⟩ := h
  unfold turn
  by_cases halloc : s.Allocated x.1.inum
  · rw [serve_congr fun node => hwf.findInode_seek halloc q node]
    exact ⟨rfl, _, (seek_self _).symm⟩
  · have hout : ¬ InRange x.1.inum := ha.resolve_right halloc
    rw [serve_of_not_inRange hout, serve_of_not_inRange hout]
    exact ⟨rfl, q, rfl⟩

theorem SameButPos.admitted (h : SameButPos s u) (hwf : WF s) {x : Turn} (hok : Admitted s x) :
    Admitted u x := by
  obtain ⟨q, hq⟩ := (h.step hwf hok.1).2
  obtain ⟨p, rfl⟩ := h
  refine ⟨hok.1, ?_⟩
  rw [hq]
  exact hok.2

/-- The same over whole runs. -/
theorem SameButPos.run {xs : List Turn} {t : Server} (h : SameButPos s u) (hwf : WF s)
    (hrun : Run turn Admitted s xs t) : ∃ v, Run turn Admitted u xs v ∧ SameButPos t v := by
  have hstep : ∀ (s u : Server) (x : Turn), WF s ∧ SameButPos s u → Admitted s x →
      Admitted u x ∧ WF (turn s x) ∧ SameButPos (turn s x) (turn u x) := by
    rintro s u x ⟨hs, hsame⟩ hok
    exact ⟨hsame.admitted hs hok, (hs.turn_refines hok).wf, (hsame.step hs hok.1).2⟩
  obtain ⟨v, hrun', _, hv⟩ := hrun.simulation hstep ⟨hwf, h⟩
  exact ⟨v, hrun', hv⟩

theorem SameButPos.replies {xs : List Turn} {t : Server} (h : SameButPos s u) (hwf : WF s)
    (hrun : Run turn Admitted s xs t) : replies u xs = replies s xs := by
  induction xs generalizing s u with
  | nil => rfl
  | cons x xs ih =>
      cases hrun with
      | cons hok hrest =>
          obtain ⟨hreply, hnext⟩ := h.step hwf hok.1
          rw [Linux.replies, Linux.replies, hreply, ih hnext (hwf.turn_refines hok).wf hrest]

end Descriptor

/-! ## Loading the checkpoint region -/

/-- `start_server` on an image whose checkpoint region holds the globals of `s`. -/
theorem InSync.reload_eq {s : Server} (hs : InSync s) (hr : ∀ i, s.Allocated i → InRange i) :
    reload s.file = s.seek 16388 := by
  have hsize := hs.size
  have himap : (s.file.seekTo 0).read (fun _ => 0) 16384 =
      (fun o => if o < 16384 then s.file.byte o else 0, s.file.seekTo 16384) := by
    rw [File.read_full _ (by simp only [File.seekTo_size, File.seekTo_pos]; omega)]
    simp only [File.seekTo_pos, File.seekTo_byte, Nat.zero_add, File.seekTo_seekTo]
  have hnext : (s.file.seekTo 16384).read (fun _ => 0) 4 =
      (fun o => if o < 4 then s.file.byte (16384 + o) else 0, s.file.seekTo 16388) := by
    rw [File.read_full _ (by simp only [File.seekTo_size, File.seekTo_pos]; omega)]
    simp only [File.seekTo_pos, File.seekTo_byte, File.seekTo_seekTo]
  have hcells : ∀ i, (if 0 ≤ i ∧ i < 4096 then
      getInt (fun o => if o < 16384 then s.file.byte o else 0) (4 * i.toNatClampNeg) else -1) =
      s.imap i := by
    intro i
    by_cases hi : InRange i
    · have hlt := hi.blk_lt
      have hcell : getInt (fun o => if o < 16384 then s.file.byte o else 0) (4 * blk i) =
          getInt s.file.byte (4 * blk i) := getInt_congr fun k hk => if_pos (by omega)
      exact (if_pos hi).trans (hcell.trans (hs.imap i hi))
    · refine (if_neg hi).trans ?_
      by_contra hne
      exact hi (hr i (Ne.symm hne))
  have hlast : getInt (fun o => if o < 4 then s.file.byte (16384 + o) else 0) 0 = s.nextBlock := by
    rw [← hs.next]
    simp only [getInt]
    rfl
  simp only [reload]
  rw [File.lseek_of_nonneg _ (Int.le_refl 0), Int.toNat_zero, himap]
  simp only [hnext]
  rw [hlast, funext hcells]
  rfl

/-! ## Runs -/

/-- A turn after which the checkpoint region is still in step. -/
def Kept (s : Server) (x : Turn) : Prop := Tolerated s x.1 ∧ ¬ s.tree.Forgets x.1

theorem WF.turn_kept {s : Server} (h : WF s) (hs : InSync s) {x : Turn} (hok : Kept s x) :
    WF (turn s x) ∧ InSync (turn s x) := by
  rcases h.tolerated_cases hok.1 with hadm | hquiet
  · have href := h.turn_refines hadm
    exact ⟨href.wf, href.sync hs hok.2⟩
  · exact ⟨hquiet.wf, hquiet.sync hs⟩

/-- **Restart.**  After every run whose creations of an unknown type do not extend a directory, the
checkpoint region holds `imap` and `next_block`; `start_server` loads them back, and every later run
gets the same replies and leaves the same globals and the same image as without the restart. -/
theorem restart_transparent {stack : Directory} {xs : List Turn} {s : Server}
    (hrun : Run turn Kept (format stack) xs s) :
    InSync s ∧ (reload s.file).imap = s.imap ∧ (reload s.file).nextBlock = s.nextBlock ∧
      ∀ ys t, Run turn Admitted s ys t →
        replies (reload s.file) ys = replies s ys ∧
          ∃ t', Run turn Admitted (reload s.file) ys t' ∧ Unchanged t t' := by
  obtain ⟨hwf₀, _, hsync₀⟩ := format_spec stack
  obtain ⟨hwf, hsync⟩ : WF s ∧ InSync s :=
    hrun.invariant (I := fun u => WF u ∧ InSync u) (fun u x hu hok => hu.1.turn_kept hu.2 hok)
      ⟨hwf₀, hsync₀⟩
  have heq := hsync.reload_eq hwf.inRange
  have hsame : SameButPos s (reload s.file) := ⟨16388, heq⟩
  refine ⟨hsync, by rw [heq]; rfl, by rw [heq]; rfl, ?_⟩
  intro ys t hlater
  obtain ⟨t', hrun', q, hq⟩ := hsame.run hwf hlater
  exact ⟨hsame.replies hwf hlater, t', hrun', hq ▸ Unchanged.seek t q⟩

theorem restart_transparent_creat_fails :
    ∃ s, Run turn Kept (format (default : Stack).direct)
        [(.creat 0 7 ⟨[97], by decide, by decide⟩, default)] s ∧
      (reload s.file).imap = s.imap ∧ (reload s.file).nextBlock = s.nextBlock := by
  obtain ⟨hwf, htree, _⟩ := format_spec (default : Stack).direct
  have hok : Admitted (format (default : Stack).direct)
      (.creat 0 7 ⟨[97], by decide, by decide⟩, default) := by
    refine hwf.admitted_of_tree (Or.inr (by rw [htree]; decide +kernel)) ?_
    rw [format_eq]
    decide
  have hkept : Kept (format (default : Stack).direct)
      (.creat 0 7 ⟨[97], by decide, by decide⟩, default) := by
    refine ⟨hwf.tolerated_of_admitted hok, ?_⟩
    rw [htree]
    rintro ⟨slots, hslots, _, _, hfull, _⟩
    rw [Fs.init, if_pos rfl, Option.some.injEq, Node.dir.injEq] at hslots
    exact hfull (hslots ▸ by decide +kernel)
  have hrun : Run turn Kept (format (default : Stack).direct) [_] _ := Run.cons hkept (Run.nil _)
  obtain ⟨_, himap, hnext, _⟩ := restart_transparent hrun
  exact ⟨_, hrun, himap, hnext⟩

/-! ## A region left behind -/

/-- The root directory of a fresh image once creations of an unknown type have stored the names `l`,
all of them under the number 1, which stays free. -/
def crowded (l : List (List UInt8)) : List DirSlot :=
  (some (Name.dot.bytes, 0) :: some (Name.dotdot.bytes, 0) :: l.map fun n => some (n, 1)) ++
    List.replicate (126 - l.length) none

def crowd (l : List (List UInt8)) : Fs := Function.update Fs.init 0 (some (.dir (crowded l)))

section Crowd

variable {l : List (List UInt8)} {n : Name}

theorem crowd_root : crowd l 0 = some (.dir (crowded l)) := Function.update_self ..

theorem crowd_freeInum : (crowd l).freeInum = 1 := by
  have h0 : (crowd l (Int32.ofNat 0)).isNone = false := by
    rw [show Int32.ofNat 0 = 0 from rfl, crowd_root]
    rfl
  have h1 : (crowd l (Int32.ofNat (Nat.succ 0))).isNone = true := rfl
  unfold Fs.freeInum
  rw [List.range_succ_eq_map, List.find?_cons_of_neg (by rw [h0]; decide), List.range_succ_eq_map,
    List.map_cons, List.find?_cons_of_pos (p := fun i => (crowd l (Int32.ofNat i)).isNone) h1]
  rfl

theorem crowded_lookup (hn : n.bytes ∉ l) (hdot : n ≠ Name.dot) (hdotdot : n ≠ Name.dotdot)
    (hdne : n ≠ Name.dne) : lookupSlots (crowded l) n = -1 := by
  have hbytes : ∀ m : Name, n ≠ m → m.bytes ≠ n.bytes := fun m hne heq => hne (Name.ext heq.symm)
  rw [lookupSlots, SlotTable.lookup_eq_none]
  · rfl
  intro sl hsl
  simp only [crowded, List.cons_append, List.mem_cons, List.mem_append, List.mem_map,
    List.mem_replicate] at hsl
  rcases hsl with rfl | rfl | ⟨m, hm, rfl⟩ | ⟨_, rfl⟩
  · exact hbytes _ hdot
  · exact hbytes _ hdotdot
  · rintro rfl
    exact hn hm
  · exact hbytes _ hdne

theorem crowd_creat (hlen : l.length < 126) (hn : n.bytes ∉ l) (hdot : n ≠ Name.dot)
    (hdotdot : n ≠ Name.dotdot) (hdne : n ≠ Name.dne) :
    (crowd l).creat 0 7 n = (-1, crowd (l ++ [n.bytes])) := by
  have hadd : addEntry (crowded l) n 1 = some (crowded (l ++ [n.bytes])) := by
    have hsplit : List.replicate (126 - l.length) (none : DirSlot) =
        none :: List.replicate (126 - (l ++ [n.bytes]).length) none := by
      rw [← List.replicate_succ, List.length_append, List.length_singleton]
      congr 1
      omega
    rw [addEntry, crowded, hsplit, SlotTable.insert_free (by simp)]
    simp [crowded]
  have hent : (crowd l).Enters 0 n (crowded l) (crowded (l ++ [n.bytes])) :=
    { parent := crowd_root
      miss := crowded_lookup hn hdot hdotdot hdne
      free := by rw [crowd_freeInum]; decide
      add := by rw [crowd_freeInum]; exact hadd }
  rw [hent.creat_eq, if_pos (by decide), crowd, Function.update_idem]
  rfl

/-- A list of different names fills the root directory. -/
theorem crowd_execs (ns : List Name) (hlen : l.length + ns.length ≤ 126)
    (hnodup : (l ++ ns.map Name.bytes).Nodup)
    (hns : ∀ n ∈ ns, n ≠ Name.dot ∧ n ≠ Name.dotdot ∧ n ≠ Name.dne) :
    (crowd l).addresses (ns.map (Request.creat 0 7)) = true ∧
      (crowd l).execs (ns.map (Request.creat 0 7)) = crowd (l ++ ns.map Name.bytes) := by
  induction ns generalizing l with
  | nil => exact ⟨rfl, by simp [Fs.execs]⟩
  | cons n ns ih =>
      rw [List.length_cons] at hlen
      rw [List.map_cons, List.append_cons] at hnodup
      obtain ⟨hdot, hdotdot, hdne⟩ := hns n List.mem_cons_self
      have hfresh : n.bytes ∉ l := by
        intro hmem
        have hnd := hnodup.of_append_left
        exact List.disjoint_of_nodup_append hnd hmem (List.mem_singleton.mpr rfl)
      have hstep := crowd_creat (l := l) (n := n) (by omega) hfresh hdot hdotdot hdne
      obtain ⟨haddr, hexecs⟩ := ih (l := l ++ [n.bytes]) (by simp; omega) hnodup
        fun m hm => hns m (List.mem_cons_of_mem _ hm)
      constructor
      · simp only [List.map_cons, Fs.addresses, Request.inum, crowd_root, Option.isSome_some,
          Bool.or_true, Bool.true_and, Fs.exec, hstep]
        exact haddr
      · have hcons : (crowd l).execs ((n :: ns).map (Request.creat 0 7)) =
            ((crowd l).creat 0 7 n).2.execs (ns.map (Request.creat 0 7)) := rfl
        rw [hcons, hstep, hexecs, List.append_assoc]
        rfl

end Crowd

/-- 127 different names of one byte. -/
def crowdName (q : Fin 127) : Name := ⟨[UInt8.ofNat (128 + q)], by simp, by revert q; decide⟩

/-- A fresh image, and 127 creations of type 7 in the root directory: the first 126 fill its block,
the last one takes a block from the log and does not tell the checkpoint region. -/
theorem not_restart_transparent :
    ¬ ∀ (xs : List Turn) (s : Server),
      Run turn (fun _ _ => True) (format (default : Stack).direct) xs s → InSync s := by
  intro hclaim
  obtain ⟨hwf, htree, hsync⟩ := format_spec (default : Stack).direct
  let names : List Name := ((List.finRange 127).take 126).map crowdName
  let xs : List Turn := names.map fun n => (Request.creat 0 7 n, default)
  have hreqs : xs.map Prod.fst = names.map (Request.creat 0 7) := by simp [xs]
  have hinit : Fs.init = crowd [] := (Function.update_eq_self 0 Fs.init).symm
  obtain ⟨haddr, hexecs⟩ := crowd_execs (l := []) names (by simp [names]) (by decide +kernel)
    (by decide +kernel)
  obtain ⟨s, hrun, hwfs, htrees, hnext⟩ := run_of_requests (default : Stack).direct xs
    (by rw [hreqs, hinit]; exact haddr) (by simp [xs, names])
  rw [hreqs, hinit, hexecs, List.nil_append] at htrees
  have hok : Admitted s (.creat 0 7 (crowdName 126), default) :=
    hwfs.admitted_of_tree (Or.inr (by rw [htrees]; exact Option.isSome_some ▸ congrArg _ crowd_root))
      (by simp [xs, names] at hnext; omega)
  have hforget : s.tree.Forgets (.creat 0 7 (crowdName 126)) := by
    rw [htrees]
    refine ⟨crowded (names.map Name.bytes), crowd_root, ?_, by rw [crowd_freeInum]; decide, ?_⟩
    · exact crowded_lookup (by decide +kernel) (by decide +kernel) (by decide +kernel)
        (by decide +kernel)
    · simp [crowded, names]
      decide
  have hrun' := hrun.mono (I := fun _ => True) (fun _ _ _ _ => trivial) (fun _ _ _ _ => trivial)
    trivial
  have hsynced := hclaim xs s hrun'
  exact (hwfs.turn_refines hok).stale hsynced hforget (hclaim _ _ (hrun'.snoc trivial))

end Linux
end LfsXv6
