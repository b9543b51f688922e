import LfsXv6.Linux.Entries
import LfsXv6.Linux.LastWrite
import LfsXv6.Linux.Mfs

/-!
# Retransmission — requests that are executed more than once

`sendPacket` sends its request again until a reply arrives, and the server keeps no request numbers.
For a single client this is harmless: every well-formed request is idempotent.  A creation finds the
entry it made, a removal finds nothing any more (or the same stale entry again), and a write stores
the same block, at another place of the log.
-/

namespace LfsXv6
namespace Linux

open Lib

/-! ## Idempotence -/

namespace Fs

/-- The calls that a client may repeat: known types, and no removal of a dot entry. -/
def Repeatable : Request → Prop
  | .creat _ type _ => ¬ UnknownType type
  | .unlink _ name => name ≠ Name.dot ∧ name ≠ Name.dotdot
  | _ => True

section Idem

variable {fs : Fs} {p type i : Int32} {name : Name} {slots slots' : List DirSlot} {r : Request}

theorem grow_grow (size : Int32) (k : Fin 14) : grow (grow size k) k = grow size k := by
  by_cases h : (Int32.ofNat k + 1) * 4096 > size
  · have hgrow : grow size k = (Int32.ofNat k + 1) * 4096 := if_pos h
    rw [hgrow, grow, if_neg Int32.lt_irrefl]
  · have hgrow : grow size k = size := if_neg h
    rw [hgrow, hgrow]

theorem write_idem (fs : Fs) (i : Int32) (buffer : Block) (block : Int32) :
    (fs.write i buffer block).2.write i buffer block = fs.write i buffer block := by
  cases hi : fs i with
  | none => simp only [write, hi]
  | some nd =>
      cases nd with
      | dir slots => simp only [write, hi]
      | file size blocks =>
          cases hk : blockIndex block with
          | none => simp only [write, hi, hk]
          | some k => simp only [write, hi, hk, Function.update_self, Function.update_idem, grow_grow]

/-- A creation finds the entry that it stored. -/
theorem Enters.lookup_eq (h : fs.Enters p name slots slots') (hreg : fs.Regular) :
    lookupSlots slots' name = fs.freeInum := by
  obtain ⟨a, hbefore, hfresh, hlive⟩ := live_addEntry h.add
  have hnone := hreg.lookup_none h.parent h.miss
  -- by induction on the slot: an entry of that name in front would have been found
  have hfirst : ∀ b, b < a → ∀ j, ¬ SlotTable.Live slots b name.bytes j := by
    intro b
    induction b using Nat.strong_induction_on with
    | _ b ih =>
        intro hb j hj
        have hfound : SlotTable.lookup marker slots name.bytes = some j :=
          SlotTable.lookup_of_live hj (fun c hc => ih c hc (by omega))
            (fun _ c hc => hbefore c (by omega))
        rw [hnone] at hfound
        exact absurd hfound (by simp)
  have hfound : SlotTable.lookup marker slots' name.bytes = some fs.freeInum := by
    refine SlotTable.lookup_of_live ((hlive _ _ _).mpr (Or.inl ⟨rfl, rfl, rfl⟩)) ?_ ?_
    · intro b hb j hj
      rcases (hlive _ _ _).mp hj with ⟨hba, _⟩ | hold
      · omega
      · exact hfirst b hb j hold
    · intro _ b hb
      obtain ⟨n, j, hold⟩ := hbefore b hb
      exact ⟨n, j, (hlive _ _ _).mpr (Or.inr hold)⟩
  rw [lookupSlots, hfound]
  rfl

theorem creat_idem (hreg : fs.Regular) (htype : ¬ UnknownType type) :
    (fs.creat p type name).2.creat p type name = fs.creat p type name := by
  rcases creat_cases fs p type name with ⟨slots, slots', hent⟩ | ⟨_, heq⟩
  · have hparent : Function.update (Function.update fs p (some (Node.dir slots'))) fs.freeInum
        (some (newNode type fs.freeInum p)) p = some (.dir slots') := by
      rw [Function.update_of_ne (Ne.symm hent.inum_ne), Function.update_self]
    have hhit : lookupSlots slots' name ≠ -1 := by
      rw [hent.lookup_eq hreg]
      exact hent.free
    rw [hent.creat_eq, if_neg htype]
    simp only [creat, hparent]
    rw [if_pos hhit]
  · rw [heq]

/-- After a removal from the first block the name is not found any more. -/
theorem Removes.lookup_none (h : fs.Removes p name slots i) (hreg : fs.Regular)
    (hin : inFirst slots name = true) :
    SlotTable.lookup marker (clearIn slots name) name.bytes = none := by
  obtain ⟨a, ha, hent⟩ := h.entry_first hin
  have hlive := (entry_of_dir h.parent).mp hent
  cases hlook : SlotTable.lookup marker (clearIn slots name) name.bytes with
  | none => rfl
  | some j =>
      obtain ⟨b, hb, hbefore⟩ := SlotTable.lookup_eq_some_iff.mp hlook
      obtain ⟨hb, hnot⟩ := live_clearIn.mp hb
      have hge : 128 ≤ b := by
        by_contra hlt
        exact hnot ⟨by omega, rfl⟩
      by_cases hn : name.bytes = marker
      · -- the slot that was freed is now the first one called `"DNE"`
        have hlen : a < (clearIn slots name).length := by
          rw [length_clearIn]
          exact hlive.lt_length
        cases hsl : (clearIn slots name)[a] with
        | none =>
            exact absurd hn.symm
              (hbefore a (by omega) none (by rw [List.getElem?_eq_getElem hlen, hsl]))
        | some y =>
            have hy : SlotTable.Live (clearIn slots name) a y.1 y.2 := by
              rw [SlotTable.Live, List.getElem?_eq_getElem hlen, hsl]
            obtain ⟨hy, hnot⟩ := live_clearIn.mp hy
            exact absurd ⟨ha, (hy.inj hlive).1⟩ hnot
      · have := hreg.unique hent ((entry_of_dir h.parent).mpr hb) hn
        omega

theorem Removes.inum_ne (h : fs.Removes p name slots i) (hreg : fs.Regular)
    (hdot : name ≠ Name.dot) (hdotdot : name ≠ Name.dotdot) : i ≠ p := by
  obtain ⟨a, hent, _⟩ := h.entry
  exact hreg.apart hent (fun hc => hdot (Name.ext hc)) (fun hc => hdotdot (Name.ext hc))

theorem unlink_idem (hreg : fs.Regular) (hdot : name ≠ Name.dot) (hdotdot : name ≠ Name.dotdot) :
    (fs.unlink p name).2.unlink p name = fs.unlink p name := by
  rcases unlink_cases fs p name with ⟨slots, i, hrem⟩ | ⟨_, heq⟩
  · have hne := hrem.inum_ne hreg hdot hdotdot
    have hparent : Function.update (Function.update fs p (some (Node.dir (clearIn slots name)))) i none
        p = some (.dir (clearIn slots name)) := by
      rw [Function.update_of_ne (Ne.symm hne), Function.update_self]
    rw [hrem.unlink_eq]
    cases hin : inFirst slots name with
    | true => simp only [unlink, hparent, hrem.lookup_none hreg hin]
    | false =>
        have hclear : clearIn slots name = slots := if_neg (by rw [hin]; decide)
        rw [hclear] at hparent ⊢
        simp only [unlink, hparent, hrem.hit, hin, Bool.false_eq_true, if_false, Function.update_idem]
  · rw [heq]

/-- **Idempotence.**  A repeatable request that is executed again gives the same answer and changes
nothing. -/
theorem exec_idem (hreg : fs.Regular) (hr : Repeatable r) :
    (fs.exec r).2.exec r = fs.exec r := by
  cases r with
  | lookup p name => rfl
  | stat i => rfl
  | read i block => rfl
  | write i buffer block => exact write_idem fs i buffer block
  | creat p type name => exact creat_idem hreg hr
  | unlink p name => exact unlink_idem hreg hr.1 hr.2

/-- The inode that a repeatable request is about stays allocated. -/
theorem exec_alive (hreg : fs.Regular) (hr : Repeatable r) (h : fs r.inum ≠ none) :
    (fs.exec r).2 r.inum ≠ none := by
  have hc := fs.exec_change r
  generalize (fs.exec r).2 = fs' at hc
  cases hc with
  | same => exact h
  | write hi => simp [Request.inum]
  | store _ hent => simp [Request.inum]
  | create _ hent => simp [Request.inum, Function.update_of_ne (Ne.symm hent.inum_ne)]
  | remove hrem =>
      have hne := hrem.inum_ne hreg hr.1 hr.2
      simp [Request.inum, Function.update_of_ne (Ne.symm hne)]

end Idem

end Fs

/-! ## Well-formed calls -/

/-- The call names an allocated inode, a known type, no dot entry to remove, and a block to read that
was written to a regular file. -/
def Request.WellFormed (s : Server) : Request → Prop
  | .read i block => s.Allocated i ∧ (s.inode i).type = mfsRegularFile ∧
      ∃ k, blockIndex block = some k ∧ (s.inode i).dpUsed k = 1
  | r => s.Allocated r.inum ∧ Fs.Repeatable r

namespace Fs

/-- The same in the abstract file system. -/
structure Accepts (fs : Fs) (r : Request) : Prop where
  alive : fs r.inum ≠ none
  repeatable : Repeatable r
  written : ∀ i block, r = .read i block → ∃ buf, fs.read i block = some buf

/-- What the caller of an accepted call gets. -/
def outcome (fs : Fs) : Request → Outcome
  | .stat i => ⟨0, fs.stat i, none⟩
  | .read i block => ⟨0, none, fs.read i block⟩
  | r => ⟨(fs.exec r).1, none, none⟩

section Accepts

variable {fs : Fs} {r : Request}

theorem Accepts.exec (h : fs.Accepts r) (hreg : fs.Regular) : (fs.exec r).2.Accepts r where
  alive := exec_alive hreg h.repeatable h.alive
  repeatable := h.repeatable
  written := by
    rintro i block rfl
    exact h.written i block rfl

theorem outcome_exec (h : fs.Accepts r) (hreg : fs.Regular) :
    (fs.exec r).2.outcome r = fs.outcome r := by
  have hidem := exec_idem hreg h.repeatable
  cases r with
  | lookup _ _ => rfl
  | stat _ => rfl
  | read _ _ => rfl
  | write i buffer block => simp only [outcome, hidem]
  | creat p type name => simp only [outcome, hidem]
  | unlink p name => simp only [outcome, hidem]

end Accepts

end Fs

section Server

variable {s : Server} {r : Request} {st : Stack}

theorem accepts_of_wellFormed (hw : r.WellFormed s) : s.tree.Accepts r := by
  cases r with
  | read i block =>
      obtain ⟨ha, hfile, k, hk, hused⟩ := hw
      refine ⟨allocated_iff.mp ha, trivial, ?_⟩
      intro i' block' heq
      cases heq
      have hnot : ¬ (s.inode i).type = mfsDirectory := by
        rw [hfile]
        decide
      refine ⟨dataAt s.file ((s.inode i).dpointers k), Fs.read_eq_some.mpr ?_⟩
      refine ⟨(s.inode i).size, fileBlocks s.file (s.inode i), k, ?_, hk, if_pos hused⟩
      rw [tree_of_allocated ha, nodeOf, if_neg hnot]
  | lookup p name => exact ⟨allocated_iff.mp hw.1, hw.2, by simp⟩
  | stat i => exact ⟨allocated_iff.mp hw.1, hw.2, by simp⟩
  | write i buffer block => exact ⟨allocated_iff.mp hw.1, hw.2, by simp⟩
  | creat p type name => exact ⟨allocated_iff.mp hw.1, hw.2, by simp⟩
  | unlink p name => exact ⟨allocated_iff.mp hw.1, hw.2, by simp⟩

theorem admitted_of_accepts (h : s.tree.Accepts r) (hb : (turn s (r, st)).Bounded) :
    Admitted s (r, st) :=
  ⟨Or.inr (allocated_iff.mpr h.alive), hb⟩

/-- The reply to an accepted call is a matter of the file system alone. -/
theorem WF.outcome_eq (h : WF s) (hacc : s.tree.Accepts r) (hb : (turn s (r, st)).Bounded) :
    r.outcome (serve s r st).1 = s.tree.outcome r := by
  have hret := (h.turn_refines (admitted_of_accepts hacc hb)).ret_eq
  have ha : s.Allocated r.inum := allocated_iff.mpr hacc.alive
  cases r with
  | lookup p name => simp only [Request.outcome, Fs.outcome, hret]
  | write i buffer block => simp only [Request.outcome, Fs.outcome, hret]
  | creat p type name => simp only [Request.outcome, Fs.outcome, hret]
  | unlink p name => simp only [Request.outcome, Fs.outcome, hret]
  | stat i =>
      have ha : s.Allocated i := ha
      have hreply := h.statServer_eq ha st.response.stat st
      simp only [serve, hreply, Request.outcome, Fs.outcome]
      rw [if_neg (by decide), h.stat_eq ha]
  | read i block =>
      obtain ⟨buf, hread⟩ := hacc.written i block rfl
      obtain ⟨q, hq⟩ := h.readServer_eq hread st.response.buffer st
      simp only [serve, hq, Request.outcome, Fs.outcome, hread]
      rfl

end Server

/-! ## Deliveries -/

/-- One call and the executions of its request: those before the one whose reply reaches the client,
that one, and those after it. -/
structure Delivery where
  request : Request
  before : List Stack
  picked : Stack
  after : List Stack

/-- Execute a request once for every stack of the list. -/
def again (r : Request) (s : Server) (sts : List Stack) : Server :=
  sts.foldl (fun s st => turn s (r, st)) s

namespace Delivery

def executions (d : Delivery) : List Stack := d.before ++ d.picked :: d.after

/-- What the client gets. -/
def outcome (s : Server) (d : Delivery) : Outcome :=
  d.request.outcome (serve (again d.request s d.before) d.request d.picked).1

end Delivery

/-- The server after all executions of one call. -/
def deliver (s : Server) (d : Delivery) : Server := again d.request s d.executions

/-- What the client gets in a list of calls. -/
def clientOutcomes (s : Server) : List Delivery → List Outcome
  | [] => []
  | d :: ds => d.outcome s :: clientOutcomes (deliver s d) ds

/-- A call that is well formed when it is first executed, with room for all its executions. -/
def Accepted (s : Server) (d : Delivery) : Prop :=
  d.request.WellFormed s ∧ ∀ sts, sts <+: d.executions → (again d.request s sts).Bounded

/-- What clients can observe of two servers is the same. -/
structure SameView (t u : Server) : Prop where
  alloc : ∀ i, t.Allocated i ↔ u.Allocated i
  lookup : ∀ p, t.Allocated p → (t.inode p).type = mfsDirectory → ∀ name st st',
    (lookupServer t p name st).1 = (lookupServer u p name st').1
  stat : ∀ i, t.Allocated i → ∀ m m' st st',
    (statServer t i m st).1 = (statServer u i m' st').1 ∧
      (statServer t i m st).2.1 = (statServer u i m' st').2.1
  read : ∀ i block k, t.Allocated i → (t.inode i).type = mfsRegularFile →
    blockIndex block = some k → (t.inode i).dpUsed k = 1 → ∀ out out' st st',
      (readServer t i out block st).1 = (readServer u i out' block st').1 ∧
        (readServer t i out block st).2.1 = (readServer u i out' block st').2.1

theorem SameView.of_tree {t u : Server} (ht : WF t) (hu : WF u) (h : t.tree = u.tree) :
    SameView t u := by
  have halloc : ∀ i, t.Allocated i ↔ u.Allocated i := by
    intro i
    rw [allocated_iff, allocated_iff, h]
  constructor
  · exact halloc
  · intro p hp _ name st st'
    rw [ht.lookup_dir hp, hu.lookup_dir ((halloc p).mp hp), h]
  · intro i hi m m' st st'
    have hstat := ht.stat_eq hi
    rw [h, hu.stat_eq ((halloc i).mp hi), Option.some.injEq] at hstat
    rw [ht.statServer_eq hi, hu.statServer_eq ((halloc i).mp hi)]
    exact ⟨rfl, hstat.symm⟩
  · intro i block k hi hfile hk hused out out' st st'
    obtain ⟨buf, hread⟩ := (accepts_of_wellFormed (r := .read i block)
      ⟨hi, hfile, k, hk, hused⟩).written i block rfl
    obtain ⟨q, hq⟩ := ht.readServer_eq hread out st
    obtain ⟨q', hq'⟩ := hu.readServer_eq (h ▸ hread) out' st'
    rw [hq, hq']
    exact ⟨rfl, rfl⟩

section Again

variable {s : Server} {r : Request} {sts : List Stack}

/-- Executing a request again once it has taken effect. -/
theorem WF.again_fixed (h : WF s) (hreg : s.tree.Regular) (hacc : s.tree.Accepts r)
    (hfix : (s.tree.exec r).2 = s.tree) (hb : ∀ l, l <+: sts → (again r s l).Bounded) :
    WF (again r s sts) ∧ (again r s sts).tree = s.tree ∧
      s.nextBlock.toInt ≤ (again r s sts).nextBlock.toInt := by
  induction sts generalizing s with
  | nil => exact ⟨h, rfl, Int.le_refl _⟩
  | cons st sts ih =>
      have hb1 : (turn s (r, st)).Bounded := hb [st] (by simp)
      have href := h.turn_refines (admitted_of_accepts hacc hb1)
      have htree : (turn s (r, st)).tree = s.tree := href.tree_eq.trans hfix
      obtain ⟨hwf, heq, hnext⟩ := ih href.wf (by rw [htree]; exact hreg) (by rw [htree]; exact hacc)
        (by rw [htree]; exact hfix) (fun l hl => hb (st :: l) (by simpa using hl))
      refine ⟨hwf, heq.trans htree, Int.le_trans ?_ hnext⟩
      rw [href.next_eq]
      omega

/-- Executing a request one or more times has the effect of executing it once. -/
theorem WF.again_cons (h : WF s) (hreg : s.tree.Regular) (hacc : s.tree.Accepts r) {st : Stack}
    (hb : ∀ l, l <+: st :: sts → (again r s l).Bounded) :
    WF (again r s (st :: sts)) ∧ (again r s (st :: sts)).tree = (s.tree.exec r).2 ∧
      s.nextBlock.toInt + s.tree.cost r ≤ (again r s (st :: sts)).nextBlock.toInt := by
  have hb1 : (turn s (r, st)).Bounded := hb [st] (by simp)
  have href := h.turn_refines (admitted_of_accepts hacc hb1)
  have hdirs := fun p (hp : s.tree.IsDir p) => h.inRange_of_isDir hp
  have hidem := Fs.exec_idem hreg hacc.repeatable
  obtain ⟨hwf, heq, hnext⟩ := WF.again_fixed href.wf
    (by rw [href.tree_eq]; exact hreg.change hdirs (s.tree.exec_change r))
    (by rw [href.tree_eq]; exact hacc.exec hreg)
    (by rw [href.tree_eq, hidem])
    (fun l hl => hb (st :: l) (by simpa using hl))
  refine ⟨hwf, heq.trans href.tree_eq, ?_⟩
  rw [← href.next_eq]
  exact hnext

/-- Whichever execution answers the client, the outcome is the same. -/
theorem WF.outcome_again (h : WF s) (hreg : s.tree.Regular) (hacc : s.tree.Accepts r) {st : Stack}
    (hb : ∀ l, l <+: sts ++ [st] → (again r s l).Bounded) :
    r.outcome (serve (again r s sts) r st).1 = s.tree.outcome r := by
  have hlast : (turn (again r s sts) (r, st)).Bounded := by
    have := hb (sts ++ [st]) List.prefix_rfl
    simpa only [again, List.foldl_append, List.foldl_cons, List.foldl_nil] using this
  cases sts with
  | nil => exact h.outcome_eq hacc hlast
  | cons st' sts =>
      obtain ⟨hwf, htree, _⟩ := h.again_cons hreg hacc
        (fun l hl => hb l (hl.trans (List.prefix_append _ _)))
      rw [hwf.outcome_eq (by rw [htree]; exact hacc.exec hreg) hlast, htree,
        Fs.outcome_exec hacc hreg]

end Again

/-! ## Runs -/

/-- How a server that executes requests any number of times is ahead of one that executes them
once. -/
structure Ahead (s u : Server) : Prop where
  wf : WF s
  wf' : WF u
  regular : s.tree.Regular
  tree_eq : s.tree = u.tree
  next_le : u.nextBlock.toInt ≤ s.nextBlock.toInt

/-- One call. -/
theorem Ahead.step {s u : Server} (h : Ahead s u) {d : Delivery} (hok : Accepted s d) (st : Stack) :
    Admitted u (d.request, st) ∧ Ahead (deliver s d) (turn u (d.request, st)) ∧
      d.outcome s = d.request.outcome (serve u d.request st).1 := by
  have hacc := accepts_of_wellFormed hok.1
  have hacc' : u.tree.Accepts d.request := h.tree_eq ▸ hacc
  have hall : WF (deliver s d) ∧ (deliver s d).tree = (s.tree.exec d.request).2 ∧
      s.nextBlock.toInt + s.tree.cost d.request ≤ (deliver s d).nextBlock.toInt := by
    cases hstacks : d.executions with
    | nil => simp [Delivery.executions] at hstacks
    | cons st' sts =>
        have hb := hok.2
        rw [hstacks] at hb
        rw [deliver, hstacks]
        exact h.wf.again_cons h.regular hacc hb
  obtain ⟨hwf, htree, hnext⟩ := hall
  have hbounded : (deliver s d).Bounded := hwf.bounded
  -- the server that executes the request once has at least as much room
  have haddr : d.request.Addressed u := Or.inr (allocated_iff.mpr hacc'.alive)
  have hadm : Admitted u (d.request, st) := by
    refine ⟨haddr, (h.wf'.bounded_iff_hasRoom haddr).mpr ?_⟩
    have hle := h.next_le
    rw [h.tree_eq] at hnext
    simp only [Server.HasRoom, Server.Bounded] at hbounded ⊢
    omega
  have href := h.wf'.turn_refines hadm
  refine ⟨hadm, ⟨hwf, href.wf, ?_, ?_, ?_⟩, ?_⟩
  · rw [htree]
    exact h.regular.change (fun p hp => h.wf.inRange_of_isDir hp) (s.tree.exec_change d.request)
  · rw [htree, href.tree_eq, h.tree_eq]
  · have hgrow : (turn u (d.request, st)).nextBlock.toInt =
        u.nextBlock.toInt + s.tree.cost d.request := by rw [href.next_eq, h.tree_eq]
    have hle := h.next_le
    omega
  · have hprefix : d.before ++ [d.picked] <+: d.executions :=
      ⟨d.after, by simp [Delivery.executions]⟩
    rw [h.wf'.outcome_eq hacc' hadm.2, ← h.tree_eq]
    exact h.wf.outcome_again h.regular hacc fun l hl => hok.2 l (hl.trans hprefix)

/-- **Retransmission.**  When every call of one client is executed one or more times before the next
one, and any one of these executions answers it, the client gets what it would get if every request
were executed once, and the servers look the same afterwards. -/
theorem retransmission_harmless {stack : Directory} {ds : List Delivery} {t : Server}
    (hrun : Run deliver Accepted (format stack) ds t) {xs : List Turn}
    (hxs : xs.map Prod.fst = ds.map Delivery.request) :
    ∃ u, Run turn Admitted (format stack) xs u ∧
      outcomes (format stack) xs = clientOutcomes (format stack) ds ∧ SameView t u := by
  have hmain : ∀ (ds : List Delivery) (xs : List Turn) (s u t : Server), Ahead s u →
      Run deliver Accepted s ds t → xs.map Prod.fst = ds.map Delivery.request →
      ∃ v, Run turn Admitted u xs v ∧ outcomes u xs = clientOutcomes s ds ∧ Ahead t v := by
    intro ds
    induction ds with
    | nil =>
        intro xs s u t h hrun hxs
        cases hrun
        obtain rfl : xs = [] := by simpa using hxs
        exact ⟨u, Run.nil u, rfl, h⟩
    | cons d ds ih =>
        intro xs s u t h hrun hxs
        cases hrun with
        | cons hok hrest =>
            cases xs with
            | nil => simp at hxs
            | cons x xs =>
                obtain ⟨r, st⟩ := x
                simp only [List.map_cons, List.cons.injEq] at hxs
                obtain ⟨rfl, hxs⟩ := hxs
                obtain ⟨hadm, hnext, hout⟩ := h.step hok st
                obtain ⟨v, hrun', houts, hv⟩ := ih xs _ _ t hnext hrest hxs
                refine ⟨v, Run.cons hadm hrun', ?_, hv⟩
                rw [outcomes, clientOutcomes, houts, hout]
  obtain ⟨hwf, htree, _⟩ := format_spec stack
  have hstart : Ahead (format stack) (format stack) :=
    ⟨hwf, hwf, by rw [htree]; exact Fs.init_regular, rfl, Int.le_refl _⟩
  obtain ⟨u, hrun', houts, hu⟩ := hmain ds xs _ _ t hstart hrun hxs
  exact ⟨u, hrun', houts, SameView.of_tree hu.wf hu.wf' hu.tree_eq⟩

theorem retransmission_harmless_creat_twice :
    ∃ t u, Run deliver Accepted (format (default : Stack).direct)
        [⟨.creat 0 mfsRegularFile ⟨[97], by decide, by decide⟩, [default], default, []⟩] t ∧
      Run turn Admitted (format (default : Stack).direct)
        [(.creat 0 mfsRegularFile ⟨[97], by decide, by decide⟩, default)] u ∧ SameView t u := by
  obtain ⟨hwf, htree, _⟩ := format_spec (default : Stack).direct
  let r : Request := .creat 0 mfsRegularFile ⟨[97], by decide, by decide⟩
  obtain ⟨t, hrun, hwft, _, _⟩ := run_of_requests (default : Stack).direct
    [(r, default), (r, default)] (by decide +kernel) (by decide)
  have hacc : Accepted (format (default : Stack).direct) ⟨r, [default], default, []⟩ := by
    refine ⟨⟨?_, (by decide : ¬ UnknownType mfsRegularFile)⟩, ?_⟩
    · rw [allocated_iff, htree]
      exact Option.some_ne_none _
    · intro sts hsts
      cases hrun with
      | cons h₁ hrun =>
          cases hrun with
          | cons h₂ hrun =>
              have hcases : sts = [] ∨ sts = [default] ∨ sts = [default, default] := by
                have hmem := (List.mem_inits _ _).mpr hsts
                simpa [Delivery.executions] using hmem
              rcases hcases with rfl | rfl | rfl
              · exact hwf.bounded
              · exact h₁.2
              · exact h₂.2
  have hrun' : Run deliver Accepted (format (default : Stack).direct) [_] _ :=
    Run.cons hacc (Run.nil _)
  obtain ⟨u, hu, _, hview⟩ := retransmission_harmless hrun'
    (rfl : [(r, (default : Stack))].map Prod.fst = _)
  exact ⟨_, u, hrun', hu, hview⟩

end Linux
end LfsXv6
