import LfsXv6.Linux.ListenServer

/-!
# Mfs — what a call of the client library returns

The functions of `mfs.c` send one request and hand a part of the response to their caller: always the
return value, for `MFS_Stat` the `stat` structure when the call succeeded, for `MFS_Read` the buffer
when the return value is not negative.  (Before `MFS_Init`, and for names longer than 27 bytes, they
return `-1` without sending anything.)
-/

namespace LfsXv6
namespace Linux

/-- The return value of an `MFS_` function and what it copied to its caller. -/
structure Outcome where
  ret : Int32
  stat : Option Stat
  buffer : Option Block

/-- What the caller gets from a response. -/
def Request.outcome (r : Request) (receive : Response) : Outcome :=
  match r with
  | .stat _ =>
      if receive.inum < 0 then ⟨-1, none, none⟩ else ⟨receive.inum, some receive.stat, none⟩
  | .read _ _ => ⟨receive.inum, none, if receive.inum > -1 then some receive.buffer else none⟩
  | _ => ⟨receive.inum, none, none⟩

/-- What the callers get in a list of turns. -/
def outcomes (s : Server) : List Turn → List Outcome
  | [] => []
  | x :: xs => x.1.outcome (serve s x.1 x.2).1 :: outcomes (turn s x) xs

end Linux
end LfsXv6
