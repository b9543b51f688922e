import LfsXv6.Linux.Creat
import LfsXv6.Linux.Unlink
import LfsXv6.Linux.Write

/-!
# Serving — every turn of the server refines the abstract file system

The six cases are put together, the image that `start_server` formats is shown to be well formed, and
both are lifted to runs of the request loop.
-/

namespace LfsXv6
namespace Linux

open Lib

/-! ## One turn -/

section Turn

variable {s : Server} {st : Stack}

theorem isSome_tree (h : WF s) {i : Int32} (ha : ¬ InRange i ∨ s.Allocated i) :
    (s.tree i).isSome = true ↔ InRange i := by
  constructor
  · intro hsome
    refine h.inRange i fun hfree => ?_
    rw [tree_eq_none_iff.mpr hfree] at hsome
    exact absurd hsome (by simp)
  · intro hr
    rw [tree_of_allocated (ha.resolve_left (not_not.mpr hr)), Option.isSome_some]

theorem WF.lookup_refines (h : WF s) {p : Int32} {name : Name}
    (ha : Request.Addressed s (.lookup p name)) :
    Refines s (.lookup p name) (lookupServer s p name st).1 (lookupServer s p name st).2 := by
  by_cases halloc : s.Allocated p
  · obtain ⟨q, hlook⟩ := h.lookupServer_eq halloc name st s.file.pos
    rw [seek_self] at hlook
    rw [hlook]
    exact Refines.of_seek h q rfl rfl
  · have hout : ¬ InRange p := ha.resolve_right halloc
    have heq : lookupServer s p name st = (-1, s.seek s.file.pos) := by
      rw [lookupServer, findInode_of_not_inRange hout, seek_self]
      rfl
    rw [heq]
    refine Refines.of_seek h _ ?_ rfl
    rw [Fs.exec, Fs.lookup, tree_of_not_allocated halloc]

theorem WF.stat_refines (h : WF s) {i : Int32} (m : Stat) (ha : Request.Addressed s (.stat i)) :
    Refines s (.stat i) (statServer s i m st).1 (statServer s i m st).2.2 := by
  obtain ⟨node, q, hfind⟩ := findInode_moves s i st.node
  have hiff := isSome_tree (i := i) h ha
  by_cases hi : InRange i
  · rw [if_pos hi] at hfind
    have heq : statServer s i m st = (0, ⟨node.type, node.size⟩, s.seek q) := by
      rw [statServer, hfind]
      rfl
    rw [heq]
    refine Refines.of_seek h q ?_ rfl
    rw [Fs.exec, if_pos (hiff.mpr hi)]
  · rw [if_neg hi] at hfind
    have heq : statServer s i m st = (-1, m, s.seek q) := by
      rw [statServer, hfind]
      rfl
    rw [heq]
    refine Refines.of_seek h q ?_ rfl
    rw [Fs.exec, if_neg fun hc => hi (hiff.mp hc)]

theorem WF.read_refines (h : WF s) {i block : Int32} (buffer : Block)
    (ha : Request.Addressed s (.read i block)) :
    Refines s (.read i block) (readServer s i buffer block st).1
      (readServer s i buffer block st).2.2 := by
  obtain ⟨b, q, hread⟩ := readServer_moves s i buffer block st
  rw [hread]
  refine Refines.of_seek h q ?_ rfl
  simp only [Fs.exec, isSome_tree (i := i) h ha]

/-- A number out of range is turned down before anything is read. -/
theorem serve_of_not_inRange {r : Request} (h : ¬ InRange r.inum) :
    serve s r st = ({ st.response with inum := -1 }, s) := by
  have hfind : ∀ i, r.inum = i → ∀ node, findInode s i node = (-1, node, s) := by
    rintro i rfl
    exact findInode_of_not_inRange h s
  cases r with
  | lookup p name =>
      have heq : lookupServer s p name st = (-1, s) := by
        rw [lookupServer, hfind p rfl]
        rfl
      simp only [serve, heq]
  | stat i =>
      have heq : statServer s i st.response.stat st = (-1, st.response.stat, s) := by
        rw [statServer, hfind i rfl]
        rfl
      simp only [serve, heq]
  | write i buffer block =>
      have heq : writeServer s i buffer block st = (-1, s) := by
        unfold writeServer
        rw [hfind i rfl]
        rfl
      simp only [serve, heq]
  | read i block =>
      have heq : readServer s i st.response.buffer block st = (-1, st.response.buffer, s) := by
        unfold readServer
        rw [hfind i rfl]
        rfl
      simp only [serve, heq]
  | creat p type name =>
      have heq : creatServer s p type name st = (-1, s) := by
        unfold creatServer
        rw [hfind p rfl]
        rfl
      simp only [serve, heq]
  | unlink p name =>
      have heq : unlinkServer s p name st = (-1, s) := by
        unfold unlinkServer
        rw [hfind p rfl]
        rfl
      simp only [serve, heq]

/-- **Refinement.**  A request that is out of range or allocated, executed without overflow, is
answered by the server as by the abstract file system, and takes the image to an image of the
resulting file system. -/
theorem WF.serve_refines (h : WF s) {r : Request} (ha : r.Addressed s)
    (hb : (serve s r st).2.Bounded) :
    Refines s r (serve s r st).1.inum (serve s r st).2 := by
  cases r with
  | lookup p name => exact h.lookup_refines ha
  | stat i => exact h.stat_refines st.response.stat ha
  | write i buffer block => exact h.write_refines ha hb
  | read i block => exact h.read_refines st.response.buffer ha
  | creat p type name => exact h.creat_refines ha hb
  | unlink p name => exact h.unlink_refines ha

/-- The blocks that a request takes from the end of the log fit. -/
def Server.HasRoom (s : Server) (r : Request) : Prop :=
  (s.nextBlock.toInt + s.tree.cost r) * 4096 < 2 ^ 31

/-- How far the log grows can be told before the request. -/
theorem WF.serve_next (h : WF s) {r : Request} (ha : r.Addressed s) :
    (serve s r st).2.nextBlock.toInt = s.nextBlock.toInt + s.tree.cost r := by
  cases r with
  | lookup p name => exact (h.lookup_refines ha).next_eq
  | stat i => exact (h.stat_refines st.response.stat ha).next_eq
  | write i buffer block => exact h.write_next ha
  | read i block => exact (h.read_refines st.response.buffer ha).next_eq
  | creat p type name => exact h.creat_next ha
  | unlink p name => exact (h.unlink_refines ha).next_eq

/-- Whether the log is still bounded after a request can be told before it. -/
theorem WF.bounded_iff_hasRoom (h : WF s) {r : Request} (ha : r.Addressed s) :
    (serve s r st).2.Bounded ↔ s.HasRoom r := by
  rw [Server.Bounded, h.serve_next ha, Server.HasRoom]

end Turn

/-! ## A fresh image -/

/-- The server of `start_server` once the checkpoint region of a new image is written. -/
def blank : Server where
  imap := fun _ => -1
  nextBlock := 6
  file := File.empty.pwrites [⟨0, 16384, imapMem fun _ => -1⟩, ⟨16384, 4, intMem 6⟩]

theorem rootInode_eq (x : Int32) : rootInode x = newDirInode 0 x := by
  have hptr : (fun k : Fin 14 => if k = 0 then x else -1) = Function.update (fun _ => -1) 0 x := by
    funext k
    by_cases hk : k = 0 <;> simp [hk]
  have hused : (fun k : Fin 14 => if k = 0 then (1 : Int32) else 0) =
      Function.update (fun _ => 0) 0 1 := by
    funext k
    by_cases hk : k = 0 <;> simp [hk]
  rw [rootInode, newDirInode, hptr, hused]

/-- Formatting is the creation of directory 0 on a blank image. -/
theorem format_eq (stack : Directory) :
    format stack = updateCR (allocDir blank 0 (baseBlock stack)) 0 := by
  have h6 : Fits 6 := ⟨by decide, by decide⟩
  have h7 : Fits (6 + 1) := ⟨by decide, by decide⟩
  have hfile : ((File.empty.lseek 0).write (imapMem fun _ => -1) 16384).write (intMem 6) 4 =
      blank.file := rfl
  simp only [format]
  rw [hfile, write_block h6, write_block h7, rootInode_eq]
  rfl

theorem blank_wf : WF blank where
  inRange := fun _ ha => absurd rfl ha
  node := fun _ ha => absurd rfl ha
  disjoint := fun _ _ _ hx => absurd rfl hx.1
  next := by decide
  bounded := by
    simp only [Server.Bounded]
    decide

theorem blank_tree : blank.tree = fun _ => none := by
  funext i
  exact tree_of_not_allocated fun ha => ha rfl

theorem blank_inSync : InSync blank where
  size := by
    refine Nat.le_trans ?_ (File.end_le_size_pwrite (w := ⟨16384, 4, intMem 6⟩) (by simp))
    exact Nat.le_refl 16388
  imap := by
    intro i hi
    have hlt := hi.blk_lt
    refine getInt_eq ?_
    intro k hk
    have h1 : (4 * blk i + k) % 4 = k := by omega
    simp only [blank, File.pwrites_cons, File.pwrites_nil]
    rw [File.pwrite_byte_of_not_mem (Or.inl (by simp only; omega)),
      File.pwrite_byte_of_mem (by simp) (by simp only; omega)]
    simp only [imapMem, Nat.sub_zero, h1]
  next := by
    refine getInt_eq ?_
    intro k hk
    simp only [blank, File.pwrites_cons, File.pwrites_nil]
    rw [File.pwrite_byte_of_mem (by simp) (by simp only; omega)]
    simp [intMem]

theorem zero_inRange : InRange 0 := by decide

theorem format_spec (stack : Directory) :
    WF (format stack) ∧ (format stack).tree = Fs.init ∧ InSync (format stack) := by
  have hb : (allocDir blank 0 (baseBlock stack)).Bounded := by
    simp only [Server.Bounded, allocDir, blank]
    decide
  obtain ⟨hwf, htree⟩ := blank_wf.allocDir_wf zero_inRange
    (fun e => Directory.baseBlock_slotOK (d := stack) e) hb
  obtain ⟨hwf', htree'⟩ := hwf.checkpoint zero_inRange
  rw [format_eq]
  refine ⟨hwf', ?_, ?_⟩
  · rw [htree', htree, blank_tree, Directory.baseBlock_slots]
    funext i
    by_cases hi : i = 0 <;> simp [Fs.init, hi]
  · exact blank_inSync.checkpoint (File.seekTo_self _).symm
      (fun w hw => blank_wf.inLog_past (blank_wf.allocDirCalls_past w hw)) zero_inRange
      fun j hj => Function.update_of_ne hj _ _

/-! ## Runs -/

/-- A turn on a number that is out of range or allocated, after which the log is still bounded. -/
def Admitted (s : Server) (x : Turn) : Prop := x.1.Addressed s ∧ (turn s x).Bounded

theorem WF.turn_refines {s : Server} (h : WF s) {x : Turn} (hok : Admitted s x) :
    Refines s x.1 (serve s x.1 x.2).1.inum (turn s x) :=
  h.serve_refines hok.1 hok.2

/-- Every state of a run from a fresh image is well formed. -/
theorem WF.run {s t : Server} {xs : List Turn} (h : Run turn Admitted s xs t) (hs : WF s) : WF t :=
  h.invariant (fun _ _ hwf hok => (hwf.turn_refines hok).wf) hs

/-- A request that suits the abstract file system is admitted while there are three blocks left. -/
theorem WF.admitted_of_tree {s : Server} (h : WF s) {x : Turn}
    (haddr : ¬ InRange x.1.inum ∨ (s.tree x.1.inum).isSome = true)
    (hroom : (s.nextBlock.toInt + 3) * 4096 < 2 ^ 31) : Admitted s x := by
  have ha : x.1.Addressed s := by
    refine haddr.imp id fun hsome hfree => ?_
    rw [tree_eq_none_iff.mpr hfree] at hsome
    exact absurd hsome (by simp)
  refine ⟨ha, (h.bounded_iff_hasRoom ha).mpr ?_⟩
  have hcost := s.tree.cost_le_three x.1
  simp only [Server.HasRoom]
  omega

/-- A list of requests that suits the abstract file system is a run of the server, whatever the
stacks hold. -/
theorem WF.run_of_requests {s : Server} (h : WF s) (xs : List Turn)
    (haddr : s.tree.addresses (xs.map Prod.fst) = true)
    (hroom : (s.nextBlock.toInt + 3 * xs.length) * 4096 < 2 ^ 31) :
    ∃ t, Run turn Admitted s xs t ∧ t.tree = s.tree.execs (xs.map Prod.fst) ∧
      t.nextBlock.toInt ≤ s.nextBlock.toInt + 3 * xs.length := by
  induction xs generalizing s with
  | nil => exact ⟨s, Run.nil s, rfl, by simp⟩
  | cons x xs ih =>
      simp only [List.map_cons, Fs.addresses, Bool.and_eq_true, Bool.or_eq_true, Bool.not_eq_true',
        decide_eq_false_iff_not] at haddr
      rw [List.length_cons] at hroom ⊢
      have hok : Admitted s x := h.admitted_of_tree haddr.1 (by omega)
      have href := h.turn_refines hok
      have hnext := href.next_le
      obtain ⟨t, hrun, htree, hle⟩ := ih href.wf (by rw [href.tree_eq]; exact haddr.2) (by omega)
      exact ⟨t, Run.cons hok hrun, by rw [htree, href.tree_eq]; rfl, by omega⟩

/-- The same from a fresh image. -/
theorem run_of_requests (stack : Directory) (xs : List Turn)
    (haddr : Fs.init.addresses (xs.map Prod.fst) = true) (hlen : xs.length ≤ 1000) :
    ∃ t, Run turn Admitted (format stack) xs t ∧ WF t ∧
      t.tree = Fs.init.execs (xs.map Prod.fst) ∧ t.nextBlock.toInt ≤ 8 + 3 * xs.length := by
  obtain ⟨hwf, htree, _⟩ := format_spec stack
  have hnext : (format stack).nextBlock.toInt = 8 := by
    rw [format_eq]
    rfl
  obtain ⟨t, hrun, htree', hle⟩ := hwf.run_of_requests xs (by rw [htree]; exact haddr) (by omega)
  exact ⟨t, hrun, WF.run hrun hwf, by rw [htree', htree], by omega⟩

/-! ## Requests on numbers that are not allocated -/

/-- Only the requests that change the namespace need a number that is out of range or allocated. -/
def Request.Tolerable (s : Server) : Request → Prop
  | .creat p type name => Request.Addressed s (.creat p type name)
  | .unlink p name => Request.Addressed s (.unlink p name)
  | _ => True

/-- How many blocks a request may take; a write to a number that is not allocated may take one. -/
def Server.need (s : Server) (r : Request) : Nat :=
  match r with
  | .write i _ _ => if InRange i ∧ s.imap i = -1 then 1 else s.tree.cost r
  | _ => s.tree.cost r

theorem Server.cost_le_need (s : Server) (r : Request) : s.tree.cost r ≤ s.need r := by
  cases r with
  | write i buffer block =>
      by_cases hfree : InRange i ∧ s.imap i = -1
      · have hnone : s.tree i = none := tree_eq_none_iff.mpr hfree.2
        simp [Server.need, hfree, Fs.cost, Fs.write, hnone]
      · simp only [Server.need, if_neg hfree, Nat.le_refl]
  | lookup _ _ => exact Nat.le_refl _
  | stat _ => exact Nat.le_refl _
  | read _ _ => exact Nat.le_refl _
  | creat _ _ _ => exact Nat.le_refl _
  | unlink _ _ => exact Nat.le_refl _

/-- A request whose effect on the file system is known, with room in the log for it.  The bound is strict
because the end of the log, `next_block*4096`, is an offset too, to which the next request may seek. -/
def Tolerated (s : Server) (r : Request) : Prop :=
  r.Tolerable s ∧ (s.nextBlock.toInt + s.need r) * 4096 < 2 ^ 31

theorem Quiet.of_free {s : Server} (h : WF s) {r : Request} {st : Stack} (hr : InRange r.inum)
    (hfree : s.imap r.inum = -1) (hok : Tolerated s r) : Quiet s (serve s r st).2 := by
  have hnot : ¬ r.Addressed s := not_or.mpr ⟨not_not.mpr hr, not_not.mpr hfree⟩
  cases r with
  | lookup p name =>
      obtain ⟨q, hq⟩ := lookupServer_moves s p name st
      simp only [serve, hq]
      exact Quiet.of_seek h q
  | stat i =>
      obtain ⟨node, q, hfind⟩ := findInode_moves s i st.node
      have hmove : (statServer s i st.response.stat st).2.2 = s.seek q := by
        rw [statServer, hfind]
        simp only
        split <;> rfl
      simp only [serve, hmove]
      exact Quiet.of_seek h q
  | write i buffer block =>
      have hneed : s.need (.write i buffer block) = 1 := if_pos ⟨hr, hfree⟩
      have hroom := hok.2
      rw [hneed] at hroom
      exact h.write_quiet hr hfree hroom
  | read i block =>
      obtain ⟨b, q, hread⟩ := readServer_moves s i st.response.buffer block st
      simp only [serve, hread]
      exact Quiet.of_seek h q
  | creat p type name => exact absurd hok.1 hnot
  | unlink p name => exact absurd hok.1 hnot

/-- A tolerated turn either refines the abstract file system or leaves it as it is. -/
theorem WF.tolerated_cases {s : Server} (h : WF s) {x : Turn} (hok : Tolerated s x.1) :
    Admitted s x ∨ Quiet s (turn s x) := by
  by_cases ha : x.1.Addressed s
  · refine Or.inl ⟨ha, (h.bounded_iff_hasRoom ha).mpr ?_⟩
    have hroom := hok.2
    have hcost := s.cost_le_need x.1
    simp only [Server.HasRoom]
    omega
  · obtain ⟨hr, hfree⟩ := not_or.mp ha
    exact Or.inr (Quiet.of_free h (not_not.mp hr) (not_not.mp hfree) hok)

theorem WF.turn_tolerated {s : Server} (h : WF s) {x : Turn} (hok : Tolerated s x.1) : WF (turn s x) := by
  rcases h.tolerated_cases hok with hadm | hquiet
  · exact (h.turn_refines hadm).wf
  · exact hquiet.wf

theorem Server.need_of_addressed {s : Server} {r : Request} (ha : r.Addressed s) :
    s.need r = s.tree.cost r := by
  cases r with
  | write i buffer block =>
      have hfree : ¬ (InRange i ∧ s.imap i = -1) := fun hc => ha.elim (fun h => h hc.1) (fun h => h hc.2)
      simp only [Server.need, if_neg hfree]
  | lookup _ _ => rfl
  | stat _ => rfl
  | read _ _ => rfl
  | creat _ _ _ => rfl
  | unlink _ _ => rfl

theorem WF.tolerated_of_admitted {s : Server} (h : WF s) {x : Turn} (hok : Admitted s x) :
    Tolerated s x.1 := by
  refine ⟨?_, ?_⟩
  · obtain ⟨r, st⟩ := x
    cases r with
    | creat p type name => exact hok.1
    | unlink p name => exact hok.1
    | lookup _ _ => trivial
    | stat _ => trivial
    | write _ _ _ => trivial
    | read _ _ => trivial
  · rw [Server.need_of_addressed hok.1]
    exact (h.bounded_iff_hasRoom hok.1).mp hok.2

theorem WF.run_tolerated_of_admitted {s t : Server} {xs : List Turn} (h : Run turn Admitted s xs t)
    (hs : WF s) : Run turn (fun s x => Tolerated s x.1) s xs t :=
  h.mono (I := WF) (fun _ _ hwf hok => (hwf.turn_refines hok).wf)
    (fun _ _ hwf hok => hwf.tolerated_of_admitted hok) hs

theorem WF.run_tolerated {s t : Server} {xs : List Turn}
    (h : Run turn (fun s x => Tolerated s x.1) s xs t) (hs : WF s) : WF t :=
  h.invariant (fun _ _ hwf hok => hwf.turn_tolerated hok) hs

end Linux
end LfsXv6
