import LfsXv6.Lib.Run
import LfsXv6.Linux.Lfs

/-!
# ListenServer — the request loop of `listenServer.c`

`listenOnServer` reads one packet at a time, switches on its method and sends one response.  A
`Request` is a packet of one of the six methods that reach the file system, with the fields its case
reads.  (`INIT` and `RESPONSE` packets are answered without touching the server, and `SHUTDOWN` ends
the process.)
-/

namespace LfsXv6
namespace Linux

open Lib

/-- The packets of `mfs.h` that reach a function of `lfs.c`. -/
inductive Request where
  | lookup (pinum : Int32) (name : Name)
  | stat (inum : Int32)
  | write (inum : Int32) (buffer : Block) (block : Int32)
  | read (inum : Int32) (block : Int32)
  | creat (pinum : Int32) (type : Int32) (name : Name)
  | unlink (pinum : Int32) (name : Name)

/-- The `inum` field of the packet. -/
def Request.inum : Request → Int32
  | .lookup pinum _ => pinum
  | .stat inum => inum
  | .write inum _ _ => inum
  | .read inum _ => inum
  | .creat pinum _ _ => pinum
  | .unlink pinum _ => pinum

/-- The `switch` of `listenOnServer`: `response` starts as uninitialised stack. -/
def serve (s : Server) (r : Request) (st : Stack) : Response × Server :=
  match r with
  | .lookup pinum name =>
      let (rc, s) := lookupServer s pinum name st
      ({ st.response with inum := rc }, s)
  | .stat inum =>
      let (rc, stat, s) := statServer s inum st.response.stat st
      ({ st.response with inum := rc, stat := stat }, s)
  | .write inum buffer block =>
      let (rc, s) := writeServer s inum buffer block st
      ({ st.response with inum := rc }, s)
  | .read inum block =>
      let (rc, buffer, s) := readServer s inum st.response.buffer block st
      ({ st.response with inum := rc, buffer := buffer }, s)
  | .creat pinum type name =>
      let (rc, s) := creatServer s pinum type name st
      ({ st.response with inum := rc }, s)
  | .unlink pinum name =>
      let (rc, s) := unlinkServer s pinum name st
      ({ st.response with inum := rc }, s)

/-- One turn of the loop: the request that was received and the stack it was executed on. -/
abbrev Turn := Request × Stack

/-- The server after one turn of the loop. -/
def turn (s : Server) (x : Turn) : Server := (serve s x.1 x.2).2

/-- The responses sent in a list of turns. -/
def replies (s : Server) : List Turn → List Response
  | [] => []
  | x :: xs => (serve s x.1 x.2).1 :: replies (turn s x) xs

/-! ## Conditions on requests and states -/

/-- An inode number in `[0, MAXINODES)`. -/
def InRange (i : Int32) : Prop := 0 ≤ i ∧ i < 4096

instance (i : Int32) : Decidable (InRange i) := inferInstanceAs (Decidable (_ ∧ _))

/-- `imap[i] != -1` -/
def Server.Allocated (s : Server) (i : Int32) : Prop := s.imap i ≠ -1

/-- The inode number of the request is out of range, or allocated when the request is executed. -/
def Request.Addressed (s : Server) (r : Request) : Prop := ¬ InRange r.inum ∨ s.Allocated r.inum

/-- `next_block*4096 < 2^31` -/
def Server.Bounded (s : Server) : Prop := s.nextBlock.toInt * 4096 < 2 ^ 31

end Linux
end LfsXv6
