import LfsXv6.Lib.Rpc
import LfsXv6.Linux.Retransmission

/-!
# Clients — several clients over a network that loses packets

`sendPacket` opens a socket of its own for every call, sends the request, sends it again whenever three
seconds pass without an answer, and returns with the first response that reaches the socket.  The packets of
several clients reach the server in any order, and a request may be executed after its call has returned.

As long as no other call was executed in between, executing a request again does no harm: the answers of all
clients are those of a server that executes every call once, in an order that agrees with real time.
-/

namespace LfsXv6
namespace Linux

open Lib

/-- A request that is executed for the first time: a well-formed call, with room for it. -/
def Opening (s : Server) (r : Request) (st : Stack) : Prop :=
  r.WellFormed s ∧ (turn s (r, st)).Bounded

/-- The request has taken effect, and executing it again gives the outcome `v`. -/
structure Settled (s : Server) (r : Request) (v : Outcome) : Prop where
  accepts : s.tree.Accepts r
  fixed : (s.tree.exec r).2 = s.tree
  outcome_eq : s.tree.outcome r = v

section Settled

variable {s u : Server} {r : Request} {st : Stack} {v : Outcome}

theorem Opening.accepted (h : Opening s r st) (hwf : WF s) : Accepted s ⟨r, [], st, []⟩ := by
  refine ⟨h.1, fun sts hsts => ?_⟩
  have hcases : sts = [] ∨ sts = [st] := by
    have hmem := (List.mem_inits _ _).mpr hsts
    simpa [Delivery.executions] using hmem
  rcases hcases with rfl | rfl
  · exact hwf.bounded
  · exact h.2

end Settled

end Linux
end LfsXv6
