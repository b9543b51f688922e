import LfsXv6.Lib.Run

/-!
# Rpc — calls over a network that loses and delays packets

A caller sends its request until an answer arrives.  Every call has an address of its own, to which its
answers go.  The server executes the requests that reach it one at a time and keeps no record of them, so
a call may be executed more than once, even after it has returned.

Executing calls again is harmless if nothing else is executed in between, and if the server answers the
second time as it did the first time: then the calls could have been executed once each, in the order of
their first executions, and this order agrees with real time.
-/

namespace LfsXv6
namespace Lib

variable {κ ρ ι α σ : Type}

/-- A call of a client; its place in the list of calls is its address. -/
structure Call (κ ρ α : Type) where
  client : κ
  request : ρ
  answer : Option α

/-- The server, the calls that were made, the requests and the answers under way, and the addresses of the
calls that were executed, the last one first. -/
structure Rpc (κ ρ α σ : Type) where
  server : σ
  calls : List (Call κ ρ α)
  requests : List (Nat × ρ)
  replies : List (Nat × α)
  log : List Nat

/-- What may happen; a packet is named by its place among those under way. -/
inductive RpcEvent (κ ρ ι : Type) where
  | call (c : κ) (r : ρ)
  | resend (a : Nat)
  | execute (k : Nat) (i : ι)
  | answer (k : Nat)
  | loseRequest (k : Nat)
  | loseReply (k : Nat)

/-! ## Executing requests once -/

/-- The answers to requests that are executed one after the other. -/
def answers (exec : σ → ρ → ι → α × σ) (s : σ) : List (ρ × ι) → List α
  | [] => []
  | x :: xs => (exec s x.1 x.2).1 :: answers exec (exec s x.1 x.2).2 xs

/-- The server after a request. -/
def after (exec : σ → ρ → ι → α × σ) (s : σ) (x : ρ × ι) : σ := (exec s x.1 x.2).2

theorem answers_snoc (exec : σ → ρ → ι → α × σ) (s : σ) (xs : List (ρ × ι)) (x : ρ × ι) :
    answers exec s (xs ++ [x]) =
      answers exec s xs ++ [(exec (xs.foldl (after exec) s) x.1 x.2).1] := by
  induction xs generalizing s with
  | nil => rfl
  | cons y ys ih =>
      rw [List.cons_append, answers, ih, answers]
      rfl

theorem length_answers (exec : σ → ρ → ι → α × σ) (s : σ) (xs : List (ρ × ι)) :
    (answers exec s xs).length = xs.length := by
  induction xs generalizing s with
  | nil => rfl
  | cons x xs ih => rw [answers, List.length_cons, ih, List.length_cons]

namespace Rpc

/-! ## The network -/

/-- No call has been made. -/
def start (s : σ) : Rpc κ ρ α σ := ⟨s, [], [], [], []⟩

/-- One event. -/
def step (exec : σ → ρ → ι → α × σ) (n : Rpc κ ρ α σ) : RpcEvent κ ρ ι → Rpc κ ρ α σ
  | .call c r =>
      { n with calls := n.calls ++ [⟨c, r, none⟩], requests := n.requests ++ [(n.calls.length, r)] }
  | .resend a =>
      match n.calls[a]? with
      | none => n
      | some x => { n with requests := n.requests ++ [(a, x.request)] }
  | .execute k i =>
      match n.requests[k]? with
      | none => n
      | some q =>
          { n with
            server := (exec n.server q.2 i).2
            requests := n.requests.eraseIdx k
            replies := n.replies ++ [(q.1, (exec n.server q.2 i).1)]
            log := q.1 :: n.log }
  | .answer k =>
      match n.replies[k]? with
      | none => n
      | some q =>
          { n with
            calls := n.calls.modify q.1 fun x => { x with answer := some q.2 }
            replies := n.replies.eraseIdx k }
  | .loseRequest k => { n with requests := n.requests.eraseIdx k }
  | .loseReply k => { n with replies := n.replies.eraseIdx k }

/-- A client makes one call at a time, and resends and listens until it is answered. -/
def Enabled (n : Rpc κ ρ α σ) : RpcEvent κ ρ ι → Prop
  | .call c _ => ∀ x ∈ n.calls, x.client = c → x.answer ≠ none
  | .resend a => ∃ x, n.calls[a]? = some x ∧ x.answer = none
  | .execute k _ => k < n.requests.length
  | .answer k => ∃ q x, n.replies[k]? = some q ∧ n.calls[q.1]? = some x ∧ x.answer = none
  | .loseRequest k => k < n.requests.length
  | .loseReply k => k < n.replies.length

/-- The request of the call at address `a`. -/
def requestAt (n : Rpc κ ρ α σ) (a : Nat) : Option ρ := (n.calls[a]?).map Call.request

/-- The calls in the order in which they were first executed. -/
def order (n : Rpc κ ρ α σ) : List Nat := n.log.dedup.reverse

/-- The call at address `a` was given the answer `v` when the requests `xs` were executed in the order
`order`. -/
def Answered (exec : σ → ρ → ι → α × σ) (s : σ) (order : List Nat) (xs : List (ρ × ι)) (a : Nat) (v : α) :
    Prop := ∃ j : Nat, order[j]? = some a ∧ (answers exec s xs)[j]? = some v

section Order

variable {exec : σ → ρ → ι → α × σ} {s : σ} {n : Rpc κ ρ α σ} {e : RpcEvent κ ρ ι} {a : Nat}
variable {es : List (RpcEvent κ ρ ι)}

end Order

/-! ## Calls that are executed again at once -/

/-- How a server that executes calls again (`s`) keeps up with one that executes them once (`u`): `R` holds
between the two, and `Settled s r v` says that the request `r` was executed last, and answered with `v`. -/
structure Repeats (exec : σ → ρ → ι → α × σ) (ok : σ → ρ × ι → Prop) (first again : σ → ρ → ι → Prop)
    (R : σ → σ → Prop) (Settled : σ → ρ → α → Prop) : Prop where
  first : ∀ {s u r i}, R s u → first s r i → ∃ j, ok u (r, j) ∧ R (exec s r i).2 (exec u r j).2 ∧
    (exec u r j).1 = (exec s r i).1 ∧ Settled (exec s r i).2 r (exec s r i).1
  again : ∀ {s u r i v}, R s u → Settled s r v → again s r i →
    R (exec s r i).2 u ∧ (exec s r i).1 = v ∧ Settled (exec s r i).2 r v

/-- A call is executed again only while no other call has been executed since. -/
def Apart (first again : σ → ρ → ι → Prop) (n : Rpc κ ρ α σ) : RpcEvent κ ρ ι → Prop
  | .execute k i => ∀ q, n.requests[k]? = some q →
      q.1 ∉ n.log ∧ first n.server q.2 i ∨ n.log.head? = some q.1 ∧ again n.server q.2 i
  | _ => True

/-- Every answer under way or received is the one that the call gets when it is executed once. -/
structure Faithful (exec : σ → ρ → ι → α × σ) (ok : σ → ρ × ι → Prop) (R : σ → σ → Prop)
    (Settled : σ → ρ → α → Prop) (s : σ) (n : Rpc κ ρ α σ) (xs : List (ρ × ι)) (u : σ) : Prop where
  run : Run (after exec) ok s xs u
  sim : R n.server u
  order : List.Forall₂ (fun a x => n.requestAt a = some x.1) n.order xs
  requests : ∀ q ∈ n.requests, n.requestAt q.1 = some q.2
  replies : ∀ q ∈ n.replies, Answered exec s n.order xs q.1 q.2
  answers : ∀ a x v, n.calls[a]? = some x → x.answer = some v → Answered exec s n.order xs a v
  last : ∀ a, n.log.head? = some a →
    ∃ r v, n.requestAt a = some r ∧ Answered exec s n.order xs a v ∧ Settled n.server r v

section Faithful

variable {exec : σ → ρ → ι → α × σ} {ok : σ → ρ × ι → Prop} {first again : σ → ρ → ι → Prop}
variable {R : σ → σ → Prop} {Settled : σ → ρ → α → Prop} {s u : σ} {n m : Rpc κ ρ α σ}
variable {e : RpcEvent κ ρ ι} {es : List (RpcEvent κ ρ ι)} {xs : List (ρ × ι)} {x : ρ × ι} {a b : Nat}
variable {r : ρ} {v : α} {order : List Nat}

theorem Answered.append (h : Answered exec s order xs a v) (b : Nat) (x : ρ × ι) :
    Answered exec s (order ++ [b]) (xs ++ [x]) a v := by
  obtain ⟨j, hj, hv⟩ := h
  refine ⟨j, ?_, ?_⟩
  · rw [List.getElem?_append_left (List.getElem?_eq_some_iff.mp hj).1, hj]
  · rw [answers_snoc, List.getElem?_append_left (List.getElem?_eq_some_iff.mp hv).1, hv]

theorem Answered.new (hlen : order.length = xs.length) :
    Answered exec s (order ++ [b]) (xs ++ [x]) b (exec (xs.foldl (after exec) s) x.1 x.2).1 := by
  refine ⟨order.length, List.getElem?_concat_length, ?_⟩
  rw [answers_snoc, hlen, ← length_answers exec s xs, List.getElem?_concat_length]

theorem Answered.mem (h : Answered exec s order xs a v) : a ∈ order := by
  obtain ⟨j, hj, _⟩ := h
  exact List.mem_of_getElem? hj

/-- The request of a call stays the same. -/
theorem requestAt_step (h : n.requestAt a = some r) : (step exec n e).requestAt a = some r := by
  obtain ⟨x, hx, rfl⟩ := Option.map_eq_some_iff.mp h
  cases e with
  | call c r =>
      show ((n.calls ++ [_])[a]?).map _ = _
      rw [List.getElem?_append_left (List.getElem?_eq_some_iff.mp hx).1, hx]
      rfl
  | resend b =>
      unfold step
      simp only
      split <;> exact h
  | execute k i =>
      unfold step
      simp only
      split <;> exact h
  | answer k =>
      unfold step
      simp only
      split
      · exact h
      · rename_i q hq
        show ((n.calls.modify q.1 _)[a]?).map _ = _
        rw [List.getElem?_modify, hx, Option.map_eq_map, Option.map_some, Option.map_some]
        by_cases hqa : q.1 = a
        · rw [if_pos hqa]
        · rw [if_neg hqa]
  | loseRequest k => exact h
  | loseReply k => exact h

/-- What an execution keeps of the network. -/
theorem Faithful.executed (h : Faithful exec ok R Settled s n xs u) {k : Nat} {i : ι} {q : Nat × ρ}
    {xs' : List (ρ × ι)} {u' : σ} (hq : n.requests[k]? = some q)
    (hrun : Run (after exec) ok s xs' u') (hsim : R (exec n.server q.2 i).2 u')
    (horder : List.Forall₂ (fun a x => n.requestAt a = some x.1) (q.1 :: n.log).dedup.reverse xs')
    (hkept : ∀ a v, Answered exec s n.order xs a v →
      Answered exec s (q.1 :: n.log).dedup.reverse xs' a v)
    (hnew : Answered exec s (q.1 :: n.log).dedup.reverse xs' q.1 (exec n.server q.2 i).1)
    (hlast : Settled (exec n.server q.2 i).2 q.2 (exec n.server q.2 i).1) :
    Faithful exec ok R Settled s (step exec n (.execute k i)) xs' u' := by
  have hmem := List.mem_of_getElem? hq
  have hstep : step exec n (.execute k i) = { n with
      server := (exec n.server q.2 i).2
      requests := n.requests.eraseIdx k
      replies := n.replies ++ [(q.1, (exec n.server q.2 i).1)]
      log := q.1 :: n.log } := by
    unfold step
    simp only
    rw [hq]
  rw [hstep]
  refine ⟨hrun, hsim, horder, ?_, ?_, ?_, ?_⟩
  · exact fun p hp => h.requests p (List.mem_of_mem_eraseIdx hp)
  · intro p hp
    rcases List.mem_append.mp hp with hp | hp
    · exact hkept _ _ (h.replies p hp)
    · rw [List.mem_singleton.mp hp]
      exact hnew
  · exact fun a x v hx hv => hkept _ _ (h.answers a x v hx hv)
  · intro a ha
    cases ha
    exact ⟨q.2, _, h.requests q hmem, hnew, hlast⟩

theorem Faithful.execute (hrep : Repeats exec ok first again R Settled)
    (h : Faithful exec ok R Settled s n xs u) {k : Nat} {i : ι} {q : Nat × ρ} (hq : n.requests[k]? = some q)
    (hapart : n.Apart first again (.execute k i)) :
    ∃ xs' u', Faithful exec ok R Settled s (step exec n (.execute k i)) xs' u' := by
  have hrequest := h.requests q (List.mem_of_getElem? hq)
  rcases hapart q hq with ⟨hout, hfirst⟩ | ⟨hhead, hagain⟩
  · -- the call takes its place at the end of the order
    obtain ⟨j, hok, hsim, hans, hsettled⟩ := hrep.first h.sim hfirst
    have horder : (q.1 :: n.log).dedup.reverse = n.order ++ [q.1] := by
      rw [List.dedup_cons_of_notMem hout, List.reverse_cons, Rpc.order]
    have hu : xs.foldl (after exec) s = u := h.run.eq_foldl.symm
    refine ⟨xs ++ [(q.2, j)], (exec u q.2 j).2, h.executed hq (h.run.snoc hok) hsim ?_ ?_ ?_ hsettled⟩
    · rw [horder]
      exact List.rel_append h.order (.cons hrequest .nil)
    · intro a v ha
      rw [horder]
      exact ha.append _ _
    · have hnew : Answered exec s (n.order ++ [q.1]) (xs ++ [(q.2, j)]) q.1
          (exec (xs.foldl (after exec) s) q.2 j).1 := Answered.new h.order.length_eq
      rw [hu, hans] at hnew
      rwa [horder]
  · obtain ⟨r, v, hr, hv, hsettled⟩ := h.last q.1 hhead
    obtain rfl : r = q.2 := Option.some.inj (hr.symm.trans hrequest)
    obtain ⟨hsim, hans, hsettled'⟩ := hrep.again h.sim hsettled hagain
    have hmem : q.1 ∈ n.log := List.mem_of_mem_head? hhead
    have horder : (q.1 :: n.log).dedup.reverse = n.order := by
      rw [List.dedup_cons_of_mem hmem, Rpc.order]
    refine ⟨xs, u, h.executed hq h.run hsim ?_ ?_ ?_ (by rw [hans]; exact hsettled')⟩
    · rw [horder]
      exact h.order
    · intro a v ha
      rwa [horder]
    · rw [horder, hans]
      exact hv

/-- One event. -/
theorem Faithful.step (hrep : Repeats exec ok first again R Settled)
    (h : Faithful exec ok R Settled s n xs u) (hen : n.Enabled e) (hapart : n.Apart first again e) :
    ∃ xs' u', Faithful exec ok R Settled s (Rpc.step exec n e) xs' u' := by
  have hkeep : ∀ {a r}, n.requestAt a = some r → (Rpc.step exec n e).requestAt a = some r := requestAt_step
  have horder := h.order.imp fun a x hx => hkeep hx
  have hrequests := fun q hq => hkeep (h.requests q hq)
  have hlast := fun a ha => (h.last a ha).imp fun r hr => hr.imp fun v hv => And.imp_left hkeep hv
  cases e with
  | call c r =>
      refine ⟨xs, u, h.run, h.sim, horder, ?_, h.replies, ?_, hlast⟩
      · intro q hq
        rcases List.mem_append.mp hq with hq | hq
        · exact hrequests q hq
        · rw [List.mem_singleton.mp hq]
          show ((n.calls ++ [_])[n.calls.length]?).map _ = _
          rw [List.getElem?_concat_length]
          rfl
      · intro a x v hx hv
        have hx : (n.calls ++ [⟨c, r, none⟩])[a]? = some x := hx
        by_cases ha : a < n.calls.length
        · rw [List.getElem?_append_left ha] at hx
          exact h.answers a x v hx hv
        · rw [List.getElem?_append_right (by omega), List.getElem?_singleton] at hx
          split at hx
          · cases hx
            cases hv
          · cases hx
  | resend a =>
      obtain ⟨x, hx, _⟩ := hen
      have hstep : Rpc.step exec n (.resend a) =
          { n with requests := n.requests ++ [(a, x.request)] } := by
        simp only [Rpc.step, hx]
      rw [hstep] at horder hrequests hlast ⊢
      refine ⟨xs, u, h.run, h.sim, horder, ?_, h.replies, h.answers, hlast⟩
      intro q hq
      rcases List.mem_append.mp hq with hq | hq
      · exact hrequests q hq
      · rw [List.mem_singleton.mp hq, requestAt]
        exact congrArg (Option.map _) hx
  | execute k i => exact h.execute hrep (List.getElem?_eq_getElem hen) hapart
  | answer k =>
      obtain ⟨q, x, hq, hx, _⟩ := hen
      have hstep : Rpc.step exec n (.answer k) = { n with
          calls := n.calls.modify q.1 fun x => { x with answer := some q.2 }
          replies := n.replies.eraseIdx k } := by
        simp only [Rpc.step, hq]
      have hreply := h.replies q (List.mem_of_getElem? hq)
      rw [hstep] at horder hrequests hlast ⊢
      refine ⟨xs, u, h.run, h.sim, horder, hrequests,
        fun p hp => h.replies p (List.mem_of_mem_eraseIdx hp), ?_, hlast⟩
      intro a y v hy hv
      have hy : (n.calls.modify q.1 _)[a]? = some y := hy
      rw [List.getElem?_modify] at hy
      obtain ⟨z, hz, hzy⟩ := Option.map_eq_some_iff.mp hy
      by_cases hqa : q.1 = a
      · rw [if_pos hqa] at hzy
        subst hzy hqa
        cases hv
        exact hreply
      · rw [if_neg hqa] at hzy
        subst hzy
        exact h.answers a z v hz hv
  | loseRequest k =>
      exact ⟨xs, u, h.run, h.sim, horder, fun q hq => hrequests q (List.mem_of_mem_eraseIdx hq), h.replies,
        h.answers, hlast⟩
  | loseReply k =>
      exact ⟨xs, u, h.run, h.sim, horder, hrequests, fun q hq => h.replies q (List.mem_of_mem_eraseIdx hq),
        h.answers, hlast⟩

theorem Faithful.start (hR : R s s) : Faithful exec ok R Settled s (start s : Rpc κ ρ α σ) [] s where
  run := Run.nil s
  sim := hR
  order := .nil
  requests := by simp [Rpc.start]
  replies := by simp [Rpc.start]
  answers := by simp [Rpc.start]
  last := by simp [Rpc.start]

/-- The calls that were executed have been made. -/
theorem Faithful.lt_length (h : Faithful exec ok R Settled s n xs u) (ha : a ∈ n.order) :
    a < n.calls.length := by
  obtain ⟨j, hj⟩ := List.mem_iff_getElem?.mp ha
  have hlt : j < xs.length := h.order.length_eq ▸ (List.getElem?_eq_some_iff.mp hj).1
  have hrequest := h.order.get (List.getElem?_eq_some_iff.mp hj).1 hlt
  rw [List.get_eq_getElem, (List.getElem?_eq_some_iff.mp hj).2] at hrequest
  obtain ⟨x, hx, _⟩ := Option.map_eq_some_iff.mp hrequest
  exact (List.getElem?_eq_some_iff.mp hx).1

end Faithful

end Rpc

end Lib
end LfsXv6
