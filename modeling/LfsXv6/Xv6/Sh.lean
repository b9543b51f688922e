import LfsXv6.Lib.Program

/-!
# Sh — the parser of the shell

The parser reads a line token by token: `peek` looks at the next byte, and `gettoken` takes a token.  It descends
from lists to pipelines to commands and to blocks, and it panics at the first token that does not fit.  What it
accepts is stated with the syntax trees of the shell's language, whatever blanks stand between the tokens.
-/

namespace LfsXv6
namespace Xv6
namespace Sh

open Lib Prog

/-! ## Tokens -/

/-- `whitespace` -/
def whitespace : List UInt8 := [0x20, 0x09, 0x0d, 0x0a, 0x0b]

/-- `symbols` -/
def symbols : List UInt8 := [0x3c, 0x7c, 0x3e, 0x26, 0x3b, 0x28, 0x29]

inductive Token where
  | bar
  | lparen
  | rparen
  | semi
  | amp
  | less
  | greater
  | append
  | word (text : List UInt8)
deriving DecidableEq

/-- The loops of `peek` and `gettoken` over white space -/
def skip (s : List UInt8) : List UInt8 := s.dropWhile fun c => decide (c ∈ whitespace)

/-- A byte of a word. -/
def Plain (c : UInt8) : Prop := c ∉ whitespace ∧ c ∉ symbols

instance (c : UInt8) : Decidable (Plain c) := inferInstanceAs (Decidable (_ ∧ _))

/-- `gettoken`; there is none at the end of the line. -/
def gettoken : Prog (List UInt8) (Option Token) := fun s =>
  match skip s with
  | [] => .ok (none, [])
  | c :: rest =>
      if c = 0x7c then .ok (some .bar, skip rest)
      else if c = 0x28 then .ok (some .lparen, skip rest)
      else if c = 0x29 then .ok (some .rparen, skip rest)
      else if c = 0x3b then .ok (some .semi, skip rest)
      else if c = 0x26 then .ok (some .amp, skip rest)
      else if c = 0x3c then .ok (some .less, skip rest)
      else if c = 0x3e then
        if rest.head? = some 0x3e then .ok (some .append, skip rest.tail) else .ok (some .greater, skip rest)
      else .ok (some (.word ((c :: rest).takeWhile fun c => decide (Plain c))),
        skip ((c :: rest).dropWhile fun c => decide (Plain c)))

/-- `peek` -/
def peek (toks : List UInt8) : Prog (List UInt8) Bool := fun s =>
  .ok ((skip s).head?.any fun c => decide (c ∈ toks), skip s)

/-! ## The parser -/

/-- `struct cmd` and what it is the first part of -/
inductive Cmd where
  | exec (argv : List (List UInt8))
  | redir (cmd : Cmd) (file : List UInt8) (mode fd : Nat)
  | pipe (left right : Cmd)
  | list (left right : Cmd)
  | back (cmd : Cmd)
deriving DecidableEq

/-- `cmd->argv[argc] = q` in `parseexec`, where the redirections stand around `cmd` -/
def Cmd.addArg (arg : List UInt8) : Cmd → Cmd
  | .exec argv => .exec (argv ++ [arg])
  | .redir cmd file mode fd => .redir (cmd.addArg arg) file mode fd
  | cmd => cmd

/-- `MAXARGS` -/
def maxargs : Nat := 10

/-- A parser that runs out of turns; there are always enough. -/
def stuck {α : Type} : Prog (List UInt8) α := fun _ => .error .sleep

/-- `parseredirs`, with the number of turns left -/
def parseredirs : Nat → Cmd → Prog (List UInt8) Cmd
  | 0, _ => stuck
  | n + 1, cmd => do
      if ← peek [0x3c, 0x3e] then do
        let tok ← gettoken
        match ← gettoken with
        | some (.word file) =>
            match tok with
            | some .less => parseredirs n (.redir cmd file 0x000 0)
            | some .greater => parseredirs n (.redir cmd file 0x201 1)
            | some .append => parseredirs n (.redir cmd file 0x201 1)
            | _ => parseredirs n cmd
        | _ => halt "missing file for redirection"
      else pure cmd

/-- The loop of `parseexec`, with the number of turns left -/
def parseargs : Nat → Nat → Cmd → Prog (List UInt8) Cmd
  | 0, _, _ => stuck
  | n + 1, argc, ret => do
      if ← peek [0x7c, 0x29, 0x26, 0x3b] then pure ret
      else
        match ← gettoken with
        | none => pure ret
        | some (.word q) =>
            if argc + 1 ≥ maxargs then halt "too many args"
            else do
              let ret ← parseredirs n (ret.addArg q)
              parseargs n (argc + 1) ret
        | some _ => halt "syntax"

/-- The loop of `parseline` over `&`, with the number of turns left -/
def parsebacks : Nat → Cmd → Prog (List UInt8) Cmd
  | 0, _ => stuck
  | n + 1, cmd => do
      if ← peek [0x26] then do
        let _ ← gettoken
        parsebacks n (.back cmd)
      else pure cmd

mutual

/-- `parseline`; here and below the number bounds the calls inside each other. -/
def parseline : Nat → Prog (List UInt8) Cmd
  | 0 => stuck
  | n + 1 => do
      let cmd ← parsepipe n
      let cmd ← parsebacks n cmd
      if ← peek [0x3b] then do
        let _ ← gettoken
        let right ← parseline n
        pure (.list cmd right)
      else pure cmd

/-- `parsepipe` -/
def parsepipe : Nat → Prog (List UInt8) Cmd
  | 0 => stuck
  | n + 1 => do
      let cmd ← parseexec n
      if ← peek [0x7c] then do
        let _ ← gettoken
        let right ← parsepipe n
        pure (.pipe cmd right)
      else pure cmd

/-- `parseexec` -/
def parseexec : Nat → Prog (List UInt8) Cmd
  | 0 => stuck
  | n + 1 => do
      if ← peek [0x28] then parseblock n
      else do
        let ret ← parseredirs n (.exec [])
        parseargs n 0 ret

/-- `parseblock` -/
def parseblock : Nat → Prog (List UInt8) Cmd
  | 0 => stuck
  | n + 1 => do
      if ← peek [0x28] then do
        let _ ← gettoken
        let cmd ← parseline n
        if ← peek [0x29] then do
          let _ ← gettoken
          parseredirs n cmd
        else halt "syntax - missing )"
      else halt "parseblock"

end

/-- `parsecmd`, with a bound for the calls inside each other -/
def parseall (n : Nat) : Prog (List UInt8) Cmd := do
  let cmd ← parseline n
  let _ ← peek []
  let leftovers ← look fun s => s
  if leftovers ≠ [] then halt "syntax" else pure cmd

/-- `parsecmd` -/
def parsecmd (s : List UInt8) : Except Stop Cmd := (parseall (4 * s.length + 4) s).map Prod.fst

/-! ## The language -/

inductive RedirOp where
  | less
  | greater
  | append

def RedirOp.token : RedirOp → Token
  | .less => .less
  | .greater => .greater
  | .append => .append

structure Redir where
  op : RedirOp
  file : List UInt8

namespace Redir

def tokens (r : Redir) : List Token := [r.op.token, .word r.file]

/-- A command with a redirection.  `>>` is another `>`. -/
def wrap (cmd : Cmd) (r : Redir) : Cmd :=
  match r.op with
  | .less => .redir cmd r.file 0x000 0
  | .greater => .redir cmd r.file 0x201 1
  | .append => .redir cmd r.file 0x201 1

end Redir

inductive Level where
  | line
  | pipe
  | exec
  | block

/-- The syntax trees of the shell, with the redirections of a command where they stand. -/
inductive Syn : Level → Type where
  | line (p : Syn .pipe) (backs : Nat) : Syn .line
  | list (p : Syn .pipe) (backs : Nat) (rest : Syn .line) : Syn .line
  | one (e : Syn .exec) : Syn .pipe
  | pipe (e : Syn .exec) (rest : Syn .pipe) : Syn .pipe
  | exec (redirs : List Redir) (args : List (List UInt8 × List Redir)) : Syn .exec
  | group (b : Syn .block) : Syn .exec
  | block (l : Syn .line) (redirs : List Redir) : Syn .block

namespace Syn

/-- An argument and the redirections behind it. -/
def argTokens (a : List UInt8 × List Redir) : List Token := .word a.1 :: a.2.flatMap Redir.tokens

def tokens : {v : Level} → Syn v → List Token
  | _, .line p backs => p.tokens ++ List.replicate backs .amp
  | _, .list p backs rest => p.tokens ++ List.replicate backs .amp ++ .semi :: rest.tokens
  | _, .one e => e.tokens
  | _, .pipe e rest => e.tokens ++ .bar :: rest.tokens
  | _, .exec redirs args => redirs.flatMap Redir.tokens ++ args.flatMap argTokens
  | _, .group b => b.tokens
  | _, .block l redirs => .lparen :: l.tokens ++ .rparen :: redirs.flatMap Redir.tokens

/-- What is to be done. -/
def cmd : {v : Level} → Syn v → Cmd
  | _, .line p backs => Cmd.back^[backs] p.cmd
  | _, .list p backs rest => .list (Cmd.back^[backs] p.cmd) rest.cmd
  | _, .one e => e.cmd
  | _, .pipe e rest => .pipe e.cmd rest.cmd
  | _, .exec redirs args => (redirs ++ args.flatMap Prod.snd).foldl Redir.wrap (.exec (args.map Prod.fst))
  | _, .group b => b.cmd
  | _, .block l redirs => redirs.foldl Redir.wrap l.cmd

/-- No command has too many arguments. -/
def Bounded : {v : Level} → Syn v → Prop
  | _, .line p _ => p.Bounded
  | _, .list p _ rest => p.Bounded ∧ rest.Bounded
  | _, .one e => e.Bounded
  | _, .pipe e rest => e.Bounded ∧ rest.Bounded
  | _, .exec _ args => args.length < maxargs
  | _, .group b => b.Bounded
  | _, .block l _ => l.Bounded

end Syn

/-! ## Reading tokens -/

namespace Token

/-- The byte that `peek` sees of a token, where it is a symbol. -/
def sym : Token → Option UInt8
  | .bar => some 0x7c
  | .lparen => some 0x28
  | .rparen => some 0x29
  | .semi => some 0x3b
  | .amp => some 0x26
  | .less => some 0x3c
  | .greater => some 0x3e
  | .append => some 0x3e
  | .word _ => none

def text : Token → List UInt8
  | .bar => [0x7c]
  | .lparen => [0x28]
  | .rparen => [0x29]
  | .semi => [0x3b]
  | .amp => [0x26]
  | .less => [0x3c]
  | .greater => [0x3e]
  | .append => [0x3e, 0x3e]
  | .word text => text

/-- A word is not empty, and there are no blanks and no symbols in it. -/
def Valid : Token → Prop
  | .word text => text ≠ [] ∧ ∀ c ∈ text, Plain c
  | _ => True

/-- The token does not go on in the bytes behind it. -/
def Closed : Token → List UInt8 → Prop
  | .word _, s => ∀ c ∈ s.head?, ¬ Plain c
  | .greater, s => s.head? ≠ some 0x3e
  | _, _ => True

end Token

/-- A line with these tokens, and blanks between them wherever they do not run together. -/
inductive Written : List Token → List UInt8 → Prop where
  | nil {b : List UInt8} : (∀ c ∈ b, c ∈ whitespace) → Written [] b
  | cons {b s : List UInt8} {t : Token} {ts : List Token} : (∀ c ∈ b, c ∈ whitespace) → t.Valid → t.Closed s →
      Written ts s → Written (t :: ts) (b ++ (t.text ++ s))

section Lex

variable {s rest r : List UInt8} {c : UInt8} {t : Token} {ts : List Token} {toks : List UInt8}

theorem length_skip_le (s : List UInt8) : (skip s).length ≤ s.length := List.length_dropWhile_le ..

theorem skip_skip (s : List UInt8) : skip (skip s) = skip s := List.dropWhile_idempotent ..

theorem not_white (h : skip s = c :: rest) : c ∉ whitespace := by
  have hhead := List.head?_dropWhile_not (fun c => decide (c ∈ whitespace)) s
  rw [show s.dropWhile (fun c => decide (c ∈ whitespace)) = c :: rest from h] at hhead
  simpa using hhead

/-- `gettoken` takes as much as belongs to the token. -/
theorem gettoken_cases (h : skip s = c :: rest) : ∃ t u, gettoken s = .ok (some t, skip u) ∧
    c :: rest = t.text ++ u ∧ t.Valid ∧ t.Closed u ∧ (t.sym = some c ∨ t.sym = none ∧ c ∉ symbols) := by
  unfold gettoken
  rw [h]
  dsimp only
  split_ifs with h₁ h₂ h₃ h₄ h₅ h₆ h₇ h₈
  · exact ⟨.bar, rest, rfl, by rw [h₁]; rfl, trivial, trivial, .inl (by rw [h₁]; rfl)⟩
  · exact ⟨.lparen, rest, rfl, by rw [h₂]; rfl, trivial, trivial, .inl (by rw [h₂]; rfl)⟩
  · exact ⟨.rparen, rest, rfl, by rw [h₃]; rfl, trivial, trivial, .inl (by rw [h₃]; rfl)⟩
  · exact ⟨.semi, rest, rfl, by rw [h₄]; rfl, trivial, trivial, .inl (by rw [h₄]; rfl)⟩
  · exact ⟨.amp, rest, rfl, by rw [h₅]; rfl, trivial, trivial, .inl (by rw [h₅]; rfl)⟩
  · exact ⟨.less, rest, rfl, by rw [h₆]; rfl, trivial, trivial, .inl (by rw [h₆]; rfl)⟩
  · refine ⟨.append, rest.tail, rfl, ?_, trivial, trivial, .inl (by rw [h₇]; rfl)⟩
    obtain ⟨rest, rfl⟩ := List.head?_eq_some_iff.mp h₈
    rw [h₇]
    rfl
  · exact ⟨.greater, rest, rfl, by rw [h₇]; rfl, trivial, h₈, .inl (by rw [h₇]; rfl)⟩
  · have hsym : c ∉ symbols := by simp [symbols, *]
    have hplain : Plain c := ⟨not_white h, hsym⟩
    refine ⟨.word _, _, rfl, ?_, ⟨?_, ?_⟩, ?_, .inr ⟨rfl, hsym⟩⟩
    · exact (List.takeWhile_append_dropWhile (p := fun c => decide (Plain c)) (l := c :: rest)).symm
    · rw [List.takeWhile_cons_of_pos (by simpa using hplain)]
      exact List.cons_ne_nil _ _
    · intro b hb
      simpa using List.mem_takeWhile_imp hb
    · intro b hb
      have hhead := List.head?_dropWhile_not (fun c => decide (Plain c)) (c :: rest)
      rw [hb] at hhead
      simpa using hhead

theorem text_ne_nil (h : t.Valid) : t.text ≠ [] := by
  cases t with
  | word text => exact h.1
  | _ => exact List.cons_ne_nil _ _

theorem gettoken_shorter (h : gettoken s = .ok (some t, r)) : r.length < s.length := by
  cases hs : skip s with
  | nil =>
      unfold gettoken at h
      rw [hs] at h
      cases h
  | cons c rest =>
      obtain ⟨t', u, hrun, htext, hvalid, -⟩ := gettoken_cases hs
      cases hrun.symm.trans h
      have hpos := List.length_pos_iff.mpr (text_ne_nil hvalid)
      have hlen := congrArg List.length (hs.trans htext)
      rw [List.length_append] at hlen
      have := length_skip_le s
      have := length_skip_le u
      omega

/-- The tokens of a line. -/
def lex (s : List UInt8) : List Token :=
  match _h : gettoken s with
  | .ok (some t, rest) => t :: lex rest
  | _ => []
termination_by s.length
decreasing_by exact gettoken_shorter _h

theorem lex_of_token (h : gettoken s = .ok (some t, r)) : lex s = t :: lex r := by
  rw [lex]
  split
  · rename_i t' r' h'
    cases h'.symm.trans h
    rfl
  · rename_i hno
    exact absurd h (hno t r)

theorem gettoken_end (h : skip s = []) : gettoken s = .ok (none, []) := by
  unfold gettoken
  rw [h]

theorem lex_of_end (h : skip s = []) : lex s = [] := by
  rw [lex]
  split
  · rename_i t r h'
    cases (gettoken_end h).symm.trans h'
  · rfl

theorem gettoken_skip (s : List UInt8) : gettoken (skip s) = gettoken s := by
  unfold gettoken
  rw [skip_skip]

theorem lex_skip (s : List UInt8) : lex (skip s) = lex s := by
  cases hs : skip s with
  | nil => rw [lex_of_end hs, lex_of_end (s := []) rfl]
  | cons c rest =>
      obtain ⟨t, u, hrun, -⟩ := gettoken_cases hs
      rw [lex_of_token hrun, ← hs, lex_of_token ((gettoken_skip s).trans hrun)]

/-- There is a token to take. -/
theorem gettoken_cons (h : lex s = t :: ts) : ∃ r, gettoken s = .ok (some t, r) ∧ lex r = ts := by
  cases hs : skip s with
  | nil =>
      rw [lex_of_end hs] at h
      cases h
  | cons c rest =>
      obtain ⟨t', u, hrun, -⟩ := gettoken_cases hs
      rw [lex_of_token hrun] at h
      cases h
      exact ⟨skip u, hrun, rfl⟩

/-- There is no token to take. -/
theorem gettoken_nil (h : lex s = []) : skip s = [] := by
  cases hs : skip s with
  | nil => rfl
  | cons c rest =>
      obtain ⟨t, u, hrun, -⟩ := gettoken_cases hs
      rw [lex_of_token hrun] at h
      cases h

theorem length_lex_le (s : List UInt8) : (lex s).length ≤ s.length := by
  induction hn : s.length using Nat.strong_induction_on generalizing s with
  | _ n ih =>
    cases hl : lex s with
    | nil => exact Nat.zero_le _
    | cons t ts =>
        obtain ⟨r, hrun, hr⟩ := gettoken_cons hl
        have hlt := gettoken_shorter hrun
        have hle := ih r.length (by omega) r rfl
        rw [hr] at hle
        rw [List.length_cons]
        omega

/-- Whether the next token is one of some symbols. -/
def starts (toks : List UInt8) (ts : List Token) : Bool := ts.head?.any fun t => t.sym.any fun c => decide (c ∈ toks)

/-- The tokens of a line, read off it. -/
theorem written_lex (s : List UInt8) : Written (lex s) s := by
  induction hn : s.length using Nat.strong_induction_on generalizing s with
  | _ n ih =>
    have hsplit : s = s.takeWhile (fun c => decide (c ∈ whitespace)) ++ skip s :=
      (List.takeWhile_append_dropWhile ..).symm
    have hblank : ∀ c ∈ s.takeWhile (fun c => decide (c ∈ whitespace)), c ∈ whitespace := fun c hc => by
      simpa using List.mem_takeWhile_imp hc
    cases hs : skip s with
    | nil =>
        rw [lex_of_end hs]
        rw [hs, List.append_nil] at hsplit
        rw [hsplit]
        exact .nil hblank
    | cons c rest =>
        obtain ⟨t, u, hrun, htext, hvalid, hclosed, -⟩ := gettoken_cases hs
        have hpos := List.length_pos_iff.mpr (text_ne_nil hvalid)
        have hlen := congrArg List.length (hs.trans htext)
        rw [List.length_append] at hlen
        have := length_skip_le s
        rw [lex_of_token hrun, lex_skip]
        rw [hs, htext] at hsplit
        rw [hsplit]
        exact .cons hblank hvalid hclosed (ih u.length (by omega) u rfl)

theorem skip_append {b : List UInt8} (h : ∀ c ∈ b, c ∈ whitespace) (s : List UInt8) : skip (b ++ s) = skip s :=
  List.dropWhile_append_of_pos fun c hc => by simpa using h c hc

/-- A token that is written is read. -/
theorem gettoken_written {u : List UInt8} (hvalid : t.Valid) (hclosed : t.Closed u) :
    gettoken (t.text ++ u) = .ok (some t, skip u) := by
  cases t with
  | greater =>
      have hno : u.head? ≠ some 0x3e := hclosed
      exact if_neg hno
  | word text =>
      obtain ⟨hne, hplain⟩ := hvalid
      cases text with
      | nil => exact absurd rfl hne
      | cons c text =>
          have hc := hplain c List.mem_cons_self
          have hskip : skip (c :: text ++ u) = c :: (text ++ u) :=
            List.dropWhile_cons_of_neg (by simpa using hc.1)
          have htake : (c :: (text ++ u)).takeWhile (fun c => decide (Plain c)) = c :: text := by
            rw [← List.cons_append, List.takeWhile_append_of_pos fun b hb => by simpa using hplain b hb]
            cases u with
            | nil => simp
            | cons d u => rw [List.takeWhile_cons_of_neg (by simpa using hclosed d rfl), List.append_nil]
          have hdrop : (c :: (text ++ u)).dropWhile (fun c => decide (Plain c)) = u := by
            rw [← List.cons_append, List.dropWhile_append_of_pos fun b hb => by simpa using hplain b hb]
            cases u with
            | nil => rfl
            | cons d u => exact List.dropWhile_cons_of_neg (by simpa using hclosed d rfl)
          have hne : ∀ d ∈ symbols, c ≠ d := fun d hd heq => hc.2 (heq ▸ hd)
          show gettoken (c :: text ++ u) = .ok (some (.word (c :: text)), skip u)
          unfold gettoken
          rw [hskip]
          dsimp only
          rw [if_neg (hne 0x7c (by decide)), if_neg (hne 0x28 (by decide)), if_neg (hne 0x29 (by decide)),
            if_neg (hne 0x3b (by decide)), if_neg (hne 0x26 (by decide)), if_neg (hne 0x3c (by decide)),
            if_neg (hne 0x3e (by decide)), htake, hdrop]
  | _ => rfl

/-- The tokens of a line that is written with them. -/
theorem lex_written (h : Written ts s) : lex s = ts := by
  induction h with
  | nil hblank =>
      rename_i b
      have hskip := skip_append hblank []
      rw [List.append_nil] at hskip
      exact lex_of_end hskip
  | @cons b s t ts hblank hvalid hclosed _ ih =>
      have hrun := gettoken_written hvalid hclosed
      rw [← lex_skip, skip_append hblank, lex_skip, lex_of_token hrun, lex_skip, ih]

theorem peek_run (h : ∀ c ∈ toks, c ∈ symbols) (s : List UInt8) :
    peek toks s = .ok (starts toks (lex s), skip s) := by
  unfold peek starts
  cases hs : skip s with
  | nil => rw [lex_of_end hs]
           rfl
  | cons c rest =>
      obtain ⟨t, u, hrun, -, -, -, hsym⟩ := gettoken_cases hs
      rw [lex_of_token hrun]
      rcases hsym with hsym | ⟨hsym, hc⟩
      · simp [hsym]
      · have hno : c ∉ toks := fun hin => hc (h c hin)
        simp [hsym, hno]

theorem starts_eq_true (h : starts toks ts = true) : ∃ t rest c, ts = t :: rest ∧ t.sym = some c ∧ c ∈ toks := by
  cases ts with
  | nil => cases h
  | cons t rest =>
      cases hc : t.sym with
      | none => simp [starts, hc] at h
      | some c => exact ⟨t, rest, c, rfl, hc, by simpa [starts, hc] using h⟩

end Lex

/-! ## What is accepted -/

/-- Redirections that stand around a command and an argument that comes behind them. -/
theorem addArg_wrap (redirs : List Redir) (arg : List UInt8) (c : Cmd) :
    (redirs.foldl Redir.wrap c).addArg arg = redirs.foldl Redir.wrap (c.addArg arg) := by
  induction redirs generalizing c with
  | nil => rfl
  | cons r redirs ih =>
      obtain ⟨op, file⟩ := r
      rw [List.foldl_cons, List.foldl_cons, ih]
      cases op <;> rfl

/-- What the loop of `parseexec` has made of some arguments. -/
def addArgs (c : Cmd) (args : List (List UInt8 × List Redir)) : Cmd :=
  args.foldl (fun c a => a.2.foldl Redir.wrap (c.addArg a.1)) c

/-- All arguments go to the command in the middle, and all redirections stand around it. -/
theorem addArgs_eq (redirs : List Redir) (argv : List (List UInt8)) (args : List (List UInt8 × List Redir)) :
    addArgs (redirs.foldl Redir.wrap (.exec argv)) args =
      (redirs ++ args.flatMap Prod.snd).foldl Redir.wrap (.exec (argv ++ args.map Prod.fst)) := by
  induction args generalizing redirs argv with
  | nil => simp [addArgs]
  | cons a args ih =>
      have hone : a.2.foldl Redir.wrap ((redirs.foldl Redir.wrap (.exec argv)).addArg a.1) =
          (redirs ++ a.2).foldl Redir.wrap (.exec (argv ++ [a.1])) := by
        rw [addArg_wrap, List.foldl_append]
        rfl
      calc
        addArgs (redirs.foldl Redir.wrap (.exec argv)) (a :: args) =
            addArgs ((redirs ++ a.2).foldl Redir.wrap (.exec (argv ++ [a.1]))) args := congrArg (addArgs · args) hone
        _ = _ := ih (redirs ++ a.2) (argv ++ [a.1])
        _ = _ := by simp

section Accepted

variable {s : List UInt8} {n argc : Nat} {c : Cmd} {ts : List Token}

theorem redirOp_of_sym {t : Token} {b : UInt8} (hsym : t.sym = some b) (hb : b ∈ [0x3c, 0x3e]) :
    ∃ op : RedirOp, t = op.token := by
  cases t with
  | less => exact ⟨.less, rfl⟩
  | greater => exact ⟨.greater, rfl⟩
  | append => exact ⟨.append, rfl⟩
  | word text => cases hsym
  | _ =>
      cases hsym
      exact absurd hb (by decide)

/-- The symbol that has been seen is taken. -/
theorem take_symbol {b : UInt8} (t : Token) (hsym : ∀ t' : Token, t'.sym = some b → t' = t)
    (h : starts [b] (lex s) = true) : ∃ r, gettoken (skip s) = .ok (some t, r) ∧ lex s = t :: lex r := by
  obtain ⟨t', ts, b', hts, hb', hin⟩ := starts_eq_true h
  obtain rfl := List.mem_singleton.mp hin
  obtain rfl := hsym t' hb'
  obtain ⟨r, hrun, hr⟩ := gettoken_cons ((lex_skip s).trans hts)
  exact ⟨r, hrun, by rw [hts, hr]⟩

theorem parseredirs_ends (hn : (lex s).length < n) : Ends (parseredirs n c) s True fun c' r =>
    ∃ redirs : List Redir, c' = redirs.foldl Redir.wrap c ∧ lex s = redirs.flatMap Redir.tokens ++ lex r := by
  induction n generalizing c s with
  | zero => exact absurd hn (Nat.not_lt_zero _)
  | succ n ih =>
      rw [parseredirs]
      refine ends_step (peek_run (by simp [symbols]) s) ?_
      split
      · rename_i hstarts
        obtain ⟨t, ts, b, hts, hsym, hb⟩ := starts_eq_true hstarts
        obtain ⟨op, rfl⟩ := redirOp_of_sym hsym hb
        obtain ⟨r, hrun, hr⟩ := gettoken_cons ((lex_skip s).trans hts)
        refine ends_step hrun ?_
        cases hr' : lex r with
        | nil =>
            refine ends_step (gettoken_end (gettoken_nil hr')) ?_
            exact ends_halt trivial
        | cons t' ts' =>
            obtain ⟨r', hrun', hts'⟩ := gettoken_cons hr'
            refine ends_step hrun' ?_
            cases t' with
            | word file =>
                have hlen : (lex r').length < n := by
                  rw [hts, ← hr, hr', List.length_cons, List.length_cons] at hn
                  rw [hts']
                  omega
                have hrest : Ends (parseredirs n (Redir.wrap c ⟨op, file⟩)) r' True fun c' u =>
                    ∃ redirs : List Redir, c' = redirs.foldl Redir.wrap c ∧
                      lex s = redirs.flatMap Redir.tokens ++ lex u := by
                  refine (ih hlen).mono id ?_
                  rintro c' u ⟨redirs, rfl, hu⟩
                  refine ⟨⟨op, file⟩ :: redirs, rfl, ?_⟩
                  rw [hts, ← hr, hr', ← hts', hu]
                  rfl
                cases op <;> exact hrest
            | _ => exact ends_halt trivial
      · exact ends_pure ⟨[], rfl, (lex_skip s).symm⟩

theorem parsebacks_ends (hn : (lex s).length < n) : Ends (parsebacks n c) s True fun c' r =>
    ∃ backs, c' = Cmd.back^[backs] c ∧ lex s = List.replicate backs .amp ++ lex r := by
  induction n generalizing c s with
  | zero => exact absurd hn (Nat.not_lt_zero _)
  | succ n ih =>
      rw [parsebacks]
      refine ends_step (peek_run (by simp [symbols]) s) ?_
      split
      · rename_i hstarts
        obtain ⟨r, hrun, hr⟩ := take_symbol .amp (by intro t ht; cases t <;> cases ht; rfl) hstarts
        refine ends_step hrun ?_
        rw [hr, List.length_cons] at hn
        refine (ih (by omega)).mono id ?_
        rintro c' u ⟨backs, rfl, hu⟩
        exact ⟨backs + 1, rfl, by rw [hr, hu]; rfl⟩
      · exact ends_pure ⟨0, rfl, (lex_skip s).symm⟩

theorem parseargs_ends (hn : (lex s).length < n) (hargc : argc < maxargs) : Ends (parseargs n argc c) s True
    fun c' r => ∃ args, argc + args.length < maxargs ∧ c' = addArgs c args ∧
      lex s = args.flatMap Syn.argTokens ++ lex r := by
  induction n generalizing c s argc with
  | zero => exact absurd hn (Nat.not_lt_zero _)
  | succ n ih =>
      have hnone : ∀ r, lex r = lex s → ∃ args, argc + args.length < maxargs ∧ c = addArgs c args ∧
          lex s = args.flatMap Syn.argTokens ++ lex r := fun r hr => ⟨[], hargc, rfl, hr.symm⟩
      rw [parseargs]
      refine ends_step (peek_run (by simp [symbols]) s) ?_
      split
      · exact ends_pure (hnone _ (lex_skip s))
      · cases hl : lex s with
        | nil =>
            rw [← hl]
            refine ends_step (gettoken_end (gettoken_nil ((lex_skip s).trans hl))) ?_
            exact ends_pure (hnone [] (by rw [hl, lex_of_end rfl]))
        | cons t ts =>
            obtain ⟨r, hrun, hr⟩ := gettoken_cons ((lex_skip s).trans hl)
            refine ends_step hrun ?_
            rw [hl, List.length_cons] at hn
            cases t with
            | word q =>
                by_cases hmax : argc + 1 ≥ maxargs
                · show Ends (if argc + 1 ≥ maxargs then _ else _) _ _ _
                  rw [if_pos hmax]
                  exact ends_halt trivial
                · show Ends (if argc + 1 ≥ maxargs then _ else _) _ _ _
                  rw [if_neg hmax]
                  refine ends_bind (parseredirs_ends (by rw [hr]; omega)) ?_
                  rintro _ u ⟨redirs, rfl, hu⟩
                  have hlen : (lex u).length ≤ ts.length := by
                    rw [← hr, hu, List.length_append]
                    exact Nat.le_add_left ..
                  refine (ih (by omega) (not_le.mp hmax)).mono id ?_
                  rintro _ w ⟨args, hargs, rfl, hw⟩
                  refine ⟨(q, redirs) :: args, ?_, rfl, ?_⟩
                  · rw [List.length_cons]
                    omega
                  · rw [← hr, hu, hw]
                    simp [Syn.argTokens]
            | _ => exact ends_halt trivial

end Accepted

namespace Level

/-- The function for a level, with a bound for the calls inside each other. -/
def parse : Level → Nat → Prog (List UInt8) Cmd
  | .line => parseline
  | .pipe => parsepipe
  | .exec => parseexec
  | .block => parseblock

/-- The calls until a token is taken. -/
def depth : Level → Nat
  | .line => 4
  | .pipe => 3
  | .exec => 2
  | .block => 1

end Level

/-- **Soundness.**  What the parser returns it has read. -/
theorem parse_ends (n : Nat) : ∀ (v : Level) (s : List UInt8), 4 * (lex s).length + v.depth ≤ n →
    Ends (v.parse n) s True fun c r => ∃ x : Syn v, x.Bounded ∧ c = x.cmd ∧ lex s = x.tokens ++ lex r := by
  induction n with
  | zero =>
      intro v s hn
      cases v <;> simp [Level.depth] at hn
  | succ n ih =>
      intro v s hn
      cases v with
      | line =>
          show Ends (parseline (n + 1)) _ _ _
          rw [parseline]
          simp only [Level.depth] at hn
          refine ends_bind (ih .pipe s (by simp only [Level.depth]; omega)) ?_
          rintro _ r₁ ⟨p, hp, rfl, h₁⟩
          have hlen₁ := congrArg List.length h₁
          rw [List.length_append] at hlen₁
          refine ends_bind (parsebacks_ends (by omega)) ?_
          rintro _ r₂ ⟨backs, rfl, h₂⟩
          have hlen₂ := congrArg List.length h₂
          rw [List.length_append] at hlen₂
          refine ends_step (peek_run (by simp [symbols]) r₂) ?_
          split
          · rename_i hstarts
            obtain ⟨r₃, hrun, h₃⟩ := take_symbol .semi (by intro t ht; cases t <;> cases ht; rfl) hstarts
            have hlen₃ := congrArg List.length h₃
            rw [List.length_cons] at hlen₃
            refine ends_step hrun ?_
            refine ends_bind (ih .line r₃ (by simp only [Level.depth]; omega)) ?_
            rintro _ r₄ ⟨rest, hrest, rfl, h₄⟩
            exact ends_pure ⟨.list p backs rest, ⟨hp, hrest⟩, rfl, by rw [h₁, h₂, h₃, h₄]; simp [Syn.tokens]⟩
          · exact ends_pure ⟨.line p backs, hp, rfl, by rw [h₁, h₂, lex_skip]; simp [Syn.tokens]⟩
      | pipe =>
          show Ends (parsepipe (n + 1)) _ _ _
          rw [parsepipe]
          simp only [Level.depth] at hn
          refine ends_bind (ih .exec s (by simp only [Level.depth]; omega)) ?_
          rintro _ r₁ ⟨e, he, rfl, h₁⟩
          have hlen₁ := congrArg List.length h₁
          rw [List.length_append] at hlen₁
          refine ends_step (peek_run (by simp [symbols]) r₁) ?_
          split
          · rename_i hstarts
            obtain ⟨r₂, hrun, h₂⟩ := take_symbol .bar (by intro t ht; cases t <;> cases ht; rfl) hstarts
            have hlen₂ := congrArg List.length h₂
            rw [List.length_cons] at hlen₂
            refine ends_step hrun ?_
            refine ends_bind (ih .pipe r₂ (by simp only [Level.depth]; omega)) ?_
            rintro _ r₃ ⟨rest, hrest, rfl, h₃⟩
            exact ends_pure ⟨.pipe e rest, ⟨he, hrest⟩, rfl, by rw [h₁, h₂, h₃]; simp [Syn.tokens]⟩
          · exact ends_pure ⟨.one e, he, rfl, by rw [h₁, lex_skip]; simp [Syn.tokens]⟩
      | exec =>
          show Ends (parseexec (n + 1)) _ _ _
          rw [parseexec]
          simp only [Level.depth] at hn
          refine ends_step (peek_run (by simp [symbols]) s) ?_
          split
          · refine (ih .block (skip s) (by rw [lex_skip]; simp only [Level.depth]; omega)).mono id ?_
            rintro _ r ⟨b, hb, rfl, hr⟩
            exact ⟨.group b, hb, rfl, (lex_skip s).symm.trans hr⟩
          · refine ends_bind (parseredirs_ends (by rw [lex_skip]; omega)) ?_
            rintro _ r₁ ⟨redirs, rfl, h₁⟩
            rw [lex_skip] at h₁
            have hlen₁ := congrArg List.length h₁
            rw [List.length_append] at hlen₁
            refine (parseargs_ends (by omega) (by decide)).mono id ?_
            rintro _ r₂ ⟨args, hargs, rfl, h₂⟩
            refine ⟨.exec redirs args, by simpa [Syn.Bounded] using hargs, addArgs_eq redirs [] args, ?_⟩
            rw [h₁, h₂]
            simp [Syn.tokens]
      | block =>
          show Ends (parseblock (n + 1)) _ _ _
          rw [parseblock]
          simp only [Level.depth] at hn
          refine ends_step (peek_run (by simp [symbols]) s) ?_
          split
          · rename_i hstarts
            obtain ⟨r₁, hrun, h₁⟩ := take_symbol .lparen (by intro t ht; cases t <;> cases ht; rfl) hstarts
            have hlen₁ := congrArg List.length h₁
            rw [List.length_cons] at hlen₁
            refine ends_step hrun ?_
            refine ends_bind (ih .line r₁ (by simp only [Level.depth]; omega)) ?_
            rintro _ r₂ ⟨l, hl, rfl, h₂⟩
            have hlen₂ := congrArg List.length h₂
            rw [List.length_append] at hlen₂
            refine ends_step (peek_run (by simp [symbols]) r₂) ?_
            split
            · rename_i hclose
              obtain ⟨r₃, hrun', h₃⟩ := take_symbol .rparen (by intro t ht; cases t <;> cases ht; rfl) hclose
              have hlen₃ := congrArg List.length h₃
              rw [List.length_cons] at hlen₃
              refine ends_step hrun' ?_
              refine (parseredirs_ends (by omega)).mono id ?_
              rintro _ r₄ ⟨redirs, rfl, h₄⟩
              exact ⟨.block l redirs, hl, rfl, by rw [h₁, h₂, h₃, h₄]; simp [Syn.tokens]⟩
            · exact ends_halt trivial
          · exact ends_halt trivial

/-! ## What is not refused -/

namespace Level

/-- The tokens that may come behind. -/
def follow : Level → List Token
  | .line => [.rparen]
  | .pipe => [.rparen, .semi, .amp]
  | .exec | .block => [.rparen, .semi, .amp, .bar]

/-- The rest of the line does not go on with what has been read. -/
def Follow (v : Level) (ts : List Token) : Prop := ∀ t ∈ ts.head?, t ∈ v.follow

theorem Follow.stops {v : Level} {ts : List Token} {toks : List UInt8} (h : v.Follow ts)
    (hno : ∀ t ∈ v.follow, t.sym.any (fun c => decide (c ∈ toks)) = false) : starts toks ts = false := by
  cases ts with
  | nil => rfl
  | cons t ts => exact hno t (h t rfl)

end Level

section Complete

variable {s : List UInt8} {n k : Nat} {c : Cmd} {ts : List Token}

theorem length_redirs (redirs : List Redir) : (redirs.flatMap Redir.tokens).length = 2 * redirs.length := by
  induction redirs with
  | nil => rfl
  | cons r redirs ih =>
      rw [List.flatMap_cons, List.length_append, ih, List.length_cons]
      show 2 + _ = _
      omega

theorem parseredirs_run {redirs : List Redir} (hl : lex s = redirs.flatMap Redir.tokens ++ ts)
    (hstop : starts [0x3c, 0x3e] ts = false) (hn : redirs.length < n) :
    ∃ r, parseredirs n c s = .ok (redirs.foldl Redir.wrap c, r) ∧ lex r = ts := by
  induction redirs generalizing n c s with
  | nil =>
      obtain ⟨n, rfl⟩ := Nat.exists_eq_add_one.mpr hn
      have hl : lex s = ts := hl
      refine ⟨skip s, ?_, (lex_skip s).trans hl⟩
      rw [parseredirs, bind_of_ok (peek_run (by simp [symbols]) s), hl, hstop]
      rfl
  | cons rd redirs ih =>
      obtain ⟨op, file⟩ := rd
      obtain ⟨n, rfl⟩ := Nat.exists_eq_add_one.mpr (Nat.zero_lt_of_lt hn)
      have hl : lex s = op.token :: .word file :: (redirs.flatMap Redir.tokens ++ ts) := hl
      obtain ⟨r, hrun, hr⟩ := gettoken_cons ((lex_skip s).trans hl)
      obtain ⟨r', hrun', hr'⟩ := gettoken_cons hr
      obtain ⟨u, hu, hts⟩ := ih (c := Redir.wrap c ⟨op, file⟩) hr' (Nat.lt_of_succ_lt_succ hn)
      refine ⟨u, ?_, hts⟩
      rw [parseredirs, bind_of_ok (peek_run (by simp [symbols]) s), hl,
        show starts [0x3c, 0x3e] (op.token :: .word file :: (redirs.flatMap Redir.tokens ++ ts)) = true by cases op <;> rfl,
        if_pos rfl, bind_of_ok hrun, bind_of_ok hrun']
      cases op <;> exact hu

theorem parsebacks_run {backs : Nat} (hl : lex s = List.replicate backs .amp ++ ts)
    (hstop : starts [0x26] ts = false) (hn : backs < n) :
    ∃ r, parsebacks n c s = .ok (Cmd.back^[backs] c, r) ∧ lex r = ts := by
  induction backs generalizing n c s with
  | zero =>
      obtain ⟨n, rfl⟩ := Nat.exists_eq_add_one.mpr hn
      have hl : lex s = ts := hl
      refine ⟨skip s, ?_, (lex_skip s).trans hl⟩
      rw [parsebacks, bind_of_ok (peek_run (by simp [symbols]) s), hl, hstop]
      rfl
  | succ backs ih =>
      obtain ⟨n, rfl⟩ := Nat.exists_eq_add_one.mpr (Nat.zero_lt_of_lt hn)
      have hl : lex s = .amp :: (List.replicate backs .amp ++ ts) := hl
      obtain ⟨r, hrun, hr⟩ := gettoken_cons ((lex_skip s).trans hl)
      obtain ⟨u, hu, hts⟩ := ih (c := .back c) hr (Nat.lt_of_succ_lt_succ hn)
      refine ⟨u, ?_, hts⟩
      rw [parsebacks, bind_of_ok (peek_run (by simp [symbols]) s), hl]
      show (gettoken >>= fun _ => parsebacks n (.back c)) (skip s) = _
      rw [bind_of_ok hrun, hu]
      rfl

theorem parseargs_run {args : List (List UInt8 × List Redir)} (hl : lex s = args.flatMap Syn.argTokens ++ ts)
    (hstop : Level.exec.Follow ts) (hn : (args.flatMap Syn.argTokens).length < n)
    (hargc : k + args.length < maxargs) :
    ∃ r, parseargs n k c s = .ok (addArgs c args, r) ∧ lex r = ts := by
  induction args generalizing n c s k with
  | nil =>
      obtain ⟨n, rfl⟩ := Nat.exists_eq_add_one.mpr hn
      have hl : lex s = ts := hl
      rw [parseargs, bind_of_ok (peek_run (by simp [symbols]) s), hl]
      cases ts with
      | nil =>
          have hend := gettoken_end (gettoken_nil ((lex_skip s).trans hl))
          refine ⟨[], ?_, lex_of_end rfl⟩
          show (gettoken >>= _) (skip s) = _
          rw [bind_of_ok hend]
          rfl
      | cons t ts =>
          refine ⟨skip s, ?_, (lex_skip s).trans hl⟩
          have hmem : t ∈ Level.exec.follow := hstop t rfl
          have hgo : starts [0x7c, 0x29, 0x26, 0x3b] (t :: ts) = true := by
            simp only [Level.follow, List.mem_cons, List.not_mem_nil, or_false] at hmem
            rcases hmem with rfl | rfl | rfl | rfl <;> rfl
          rw [hgo]
          rfl
  | cons a args ih =>
      obtain ⟨q, redirs⟩ := a
      obtain ⟨n, rfl⟩ := Nat.exists_eq_add_one.mpr (Nat.zero_lt_of_lt hn)
      have hl : lex s = .word q :: (redirs.flatMap Redir.tokens ++ (args.flatMap Syn.argTokens ++ ts)) := by
        rw [hl]
        simp [Syn.argTokens]
      have hlen : (List.flatMap Syn.argTokens ((q, redirs) :: args)).length =
          1 + 2 * redirs.length + (args.flatMap Syn.argTokens).length := by
        rw [List.flatMap_cons, List.length_append, Syn.argTokens, List.length_cons, length_redirs]
        exact congrArg (· + _) (Nat.add_comm _ _)
      rw [List.length_cons] at hargc
      obtain ⟨r, hrun, hr⟩ := gettoken_cons ((lex_skip s).trans hl)
      have hstop' : starts [0x3c, 0x3e] (args.flatMap Syn.argTokens ++ ts) = false := by
        cases args with
        | nil => exact hstop.stops (by decide)
        | cons a args => rfl
      obtain ⟨u, hu, hu'⟩ := parseredirs_run (c := c.addArg q) (n := n) hr hstop' (by omega)
      obtain ⟨w, hw, hts⟩ := ih (c := redirs.foldl Redir.wrap (c.addArg q)) (n := n) (k := k + 1) hu' (by omega)
        (by omega)
      refine ⟨w, ?_, hts⟩
      rw [parseargs, bind_of_ok (peek_run (by simp [symbols]) s), hl]
      show (gettoken >>= _) (skip s) = _
      rw [bind_of_ok hrun]
      show (if k + 1 ≥ maxargs then _ else _ : Prog (List UInt8) Cmd) r = _
      rw [if_neg (by omega), bind_of_ok hu, hw]
      rfl

end Complete

/-- With enough fuel the parser reads `x` and stops behind it. -/
def Syn.Parsed {v : Level} (x : Syn v) : Prop := ∀ (n : Nat) (s : List UInt8) (ts : List Token), x.Bounded →
  lex s = x.tokens ++ ts → v.Follow ts → 4 * x.tokens.length + v.depth ≤ n →
    ∃ r, v.parse n s = .ok (x.cmd, r) ∧ lex r = ts

namespace Syn.Parsed

theorem line {p : Syn .pipe} {backs : Nat} (ih : p.Parsed) : (Syn.line p backs).Parsed := by
  intro n s ts hb hl hf hn
  obtain ⟨n, rfl⟩ := Nat.exists_eq_add_one.mpr (show 0 < n by simp only [Level.depth] at hn; omega)
  simp only [Syn.tokens, List.length_append, List.length_replicate, Level.depth] at hn
  obtain ⟨r₁, hrun₁, h₁⟩ := ih n s (List.replicate backs .amp ++ ts) hb (by rw [hl, Syn.tokens, List.append_assoc])
    (by
      cases backs with
      | zero => exact fun t ht => by have := hf t ht; simp_all [Level.follow]
      | succ backs => exact fun t ht => by cases ht; decide) (by simp only [Level.depth]; omega)
  obtain ⟨r₂, hrun₂, h₂⟩ := parsebacks_run (c := p.cmd) (n := n) h₁ (hf.stops (by decide)) (by omega)
  refine ⟨skip r₂, ?_, (lex_skip r₂).trans h₂⟩
  change parsepipe n s = _ at hrun₁
  show parseline (n + 1) s = _
  rw [parseline, bind_of_ok hrun₁, bind_of_ok hrun₂, bind_of_ok (peek_run (by simp [symbols]) r₂), h₂,
    hf.stops (by decide)]
  rfl

theorem list {p : Syn .pipe} {backs : Nat} {rest : Syn .line} (ih : p.Parsed)
    (ih' : rest.Parsed) : (Syn.list p backs rest).Parsed := by
  intro n s ts hb hl hf hn
  obtain ⟨n, rfl⟩ := Nat.exists_eq_add_one.mpr (show 0 < n by simp only [Level.depth] at hn; omega)
  simp only [Syn.tokens, List.length_append, List.length_replicate, List.length_cons, Level.depth] at hn
  obtain ⟨r₁, hrun₁, h₁⟩ := ih n s (List.replicate backs .amp ++ .semi :: (rest.tokens ++ ts)) hb.1
    (by rw [hl, Syn.tokens]; simp) (by cases backs <;> exact fun t ht => by cases ht; decide)
    (by simp only [Level.depth]; omega)
  obtain ⟨r₂, hrun₂, h₂⟩ := parsebacks_run (c := p.cmd) (n := n) h₁ rfl (by omega)
  obtain ⟨r₃, hrun₃, h₃⟩ := gettoken_cons ((lex_skip r₂).trans h₂)
  obtain ⟨r₄, hrun₄, h₄⟩ := ih' n r₃ ts hb.2 h₃ hf (by simp only [Level.depth]; omega)
  refine ⟨r₄, ?_, h₄⟩
  change parsepipe n s = _ at hrun₁
  show parseline (n + 1) s = _
  rw [parseline, bind_of_ok hrun₁, bind_of_ok hrun₂, bind_of_ok (peek_run (by simp [symbols]) r₂), h₂]
  show (gettoken >>= _) (skip r₂) = _
  change parseline n r₃ = _ at hrun₄
  rw [bind_of_ok hrun₃, bind_of_ok hrun₄]
  rfl

theorem one {e : Syn .exec} (ih : e.Parsed) : (Syn.one e).Parsed := by
  intro n s ts hb hl hf hn
  obtain ⟨n, rfl⟩ := Nat.exists_eq_add_one.mpr (show 0 < n by simp only [Level.depth] at hn; omega)
  simp only [Syn.tokens, Level.depth] at hn
  obtain ⟨r, hrun, h⟩ := ih n s ts hb hl
    (fun t ht => by have := hf t ht; simp_all [Level.follow]; tauto) (by simp only [Level.depth]; omega)
  refine ⟨skip r, ?_, (lex_skip r).trans h⟩
  change parseexec n s = _ at hrun
  show parsepipe (n + 1) s = _
  rw [parsepipe, bind_of_ok hrun, bind_of_ok (peek_run (by simp [symbols]) r), h, hf.stops (by decide)]
  rfl

theorem pipe {e : Syn .exec} {rest : Syn .pipe} (ih : e.Parsed) (ih' : rest.Parsed) :
    (Syn.pipe e rest).Parsed := by
  intro n s ts hb hl hf hn
  obtain ⟨n, rfl⟩ := Nat.exists_eq_add_one.mpr (show 0 < n by simp only [Level.depth] at hn; omega)
  simp only [Syn.tokens, List.length_append, List.length_cons, Level.depth] at hn
  obtain ⟨r₁, hrun₁, h₁⟩ := ih n s (.bar :: (rest.tokens ++ ts)) hb.1 (by rw [hl, Syn.tokens]; simp)
    (fun t ht => by cases ht; decide) (by simp only [Level.depth]; omega)
  obtain ⟨r₂, hrun₂, h₂⟩ := gettoken_cons ((lex_skip r₁).trans h₁)
  obtain ⟨r₃, hrun₃, h₃⟩ := ih' n r₂ ts hb.2 h₂ hf (by simp only [Level.depth]; omega)
  refine ⟨r₃, ?_, h₃⟩
  change parseexec n s = _ at hrun₁
  change parsepipe n r₂ = _ at hrun₃
  show parsepipe (n + 1) s = _
  rw [parsepipe, bind_of_ok hrun₁, bind_of_ok (peek_run (by simp [symbols]) r₁), h₁]
  show (gettoken >>= _) (skip r₁) = _
  rw [bind_of_ok hrun₂, bind_of_ok hrun₃]
  rfl

theorem exec (redirs : List Redir) (args : List (List UInt8 × List Redir)) : (Syn.exec redirs args).Parsed := by
  intro n s ts hb hl hf hn
  obtain ⟨n, rfl⟩ := Nat.exists_eq_add_one.mpr (show 0 < n by simp only [Level.depth] at hn; omega)
  simp only [Syn.tokens, List.length_append, Level.depth, length_redirs] at hn
  have hl' : lex (skip s) = redirs.flatMap Redir.tokens ++ (args.flatMap Syn.argTokens ++ ts) := by
    rw [lex_skip, hl, Syn.tokens, List.append_assoc]
  have hblock : starts [0x28] (lex s) = false := by
    rw [← lex_skip, hl']
    cases redirs with
    | nil =>
        cases args with
        | nil => exact hf.stops (by decide)
        | cons a args => rfl
    | cons r redirs =>
        obtain ⟨op, file⟩ := r
        cases op <;> rfl
  have hstop : starts [0x3c, 0x3e] (args.flatMap Syn.argTokens ++ ts) = false := by
    cases args with
    | nil => exact hf.stops (by decide)
    | cons a args => rfl
  obtain ⟨r₁, hrun₁, h₁⟩ := parseredirs_run (c := .exec []) (n := n) hl' hstop (by omega)
  obtain ⟨r₂, hrun₂, h₂⟩ := parseargs_run (c := redirs.foldl Redir.wrap (.exec [])) (n := n) (k := 0) h₁ hf
    (by omega) (by rw [Nat.zero_add]; exact hb)
  refine ⟨r₂, ?_, h₂⟩
  show parseexec (n + 1) s = _
  rw [parseexec, bind_of_ok (peek_run (by simp [symbols]) s), hblock]
  show (parseredirs n (.exec []) >>= _) (skip s) = _
  rw [bind_of_ok hrun₁, hrun₂, addArgs_eq redirs [] args]
  rfl

theorem group {b : Syn .block} (ih : b.Parsed) : (Syn.group b).Parsed := by
  intro n s ts hb hl hf hn
  obtain ⟨n, rfl⟩ := Nat.exists_eq_add_one.mpr (show 0 < n by simp only [Level.depth] at hn; omega)
  simp only [Syn.tokens, Level.depth] at hn
  obtain ⟨r, hrun, h⟩ := ih n (skip s) ts hb ((lex_skip s).trans hl) hf (by simp only [Level.depth]; omega)
  refine ⟨r, ?_, h⟩
  cases b with
  | block l redirs =>
      show parseexec (n + 1) s = _
      rw [parseexec, bind_of_ok (peek_run (by simp [symbols]) s), hl]
      exact hrun

theorem block {l : Syn .line} {redirs : List Redir} (ih : l.Parsed) : (Syn.block l redirs).Parsed := by
  intro n s ts hb hl hf hn
  obtain ⟨n, rfl⟩ := Nat.exists_eq_add_one.mpr (show 0 < n by simp only [Level.depth] at hn; omega)
  simp only [Syn.tokens, List.length_append, List.length_cons, Level.depth, length_redirs] at hn
  have hl : lex s = .lparen :: (l.tokens ++ .rparen :: (redirs.flatMap Redir.tokens ++ ts)) := by
    rw [hl, Syn.tokens]
    simp
  obtain ⟨r₁, hrun₁, h₁⟩ := gettoken_cons ((lex_skip s).trans hl)
  obtain ⟨r₂, hrun₂, h₂⟩ := ih n r₁ _ hb h₁ (fun t ht => by cases ht; decide) (by simp only [Level.depth]; omega)
  obtain ⟨r₃, hrun₃, h₃⟩ := gettoken_cons ((lex_skip r₂).trans h₂)
  obtain ⟨r₄, hrun₄, h₄⟩ := parseredirs_run (c := l.cmd) (n := n) h₃ (hf.stops (by decide)) (by omega)
  refine ⟨r₄, ?_, h₄⟩
  change parseline n r₁ = _ at hrun₂
  show parseblock (n + 1) s = _
  rw [parseblock, bind_of_ok (peek_run (by simp [symbols]) s), hl]
  show (gettoken >>= _) (skip s) = _
  rw [bind_of_ok hrun₁, bind_of_ok hrun₂, bind_of_ok (peek_run (by simp [symbols]) r₂), h₂]
  show (gettoken >>= _) (skip r₂) = _
  rw [bind_of_ok hrun₃]
  exact hrun₄

end Syn.Parsed

/-- **Completeness.**  What the language has is not refused. -/
theorem parse_run {v : Level} (x : Syn v) : x.Parsed := by
  induction x with
  | line p backs ih => exact ih.line
  | list p backs rest ih ih' => exact ih.list ih'
  | one e ih => exact ih.one
  | pipe e rest ih ih' => exact ih.pipe ih'
  | exec redirs args => exact Syn.Parsed.exec redirs args
  | group b ih => exact ih.group
  | block l redirs ih => exact ih.block

/-! ## `parsecmd` -/

theorem parsecmd_eq_ok {s : List UInt8} {c : Cmd} :
    parsecmd s = .ok c ↔ ∃ r, parseall (4 * s.length + 4) s = .ok (c, r) := by
  unfold parsecmd
  cases parseall (4 * s.length + 4) s with
  | error e => exact ⟨fun h => (by cases h), fun ⟨_, h⟩ => (by cases h)⟩
  | ok x =>
      refine ⟨fun h => ⟨x.2, ?_⟩, fun ⟨r, h⟩ => ?_⟩
      · cases h
        rfl
      · cases h
        rfl

/-- What the parser accepts is a line of the language. -/
theorem parsecmd_ends (s : List UInt8) : Ends (parseall (4 * s.length + 4)) s True fun c _ =>
    ∃ x : Syn .line, x.Bounded ∧ Written x.tokens s ∧ x.cmd = c := by
  have hn : 4 * (lex s).length + Level.line.depth ≤ 4 * s.length + 4 := by
    have := length_lex_le s
    simp only [Level.depth]
    omega
  unfold parseall
  refine ends_bind (parse_ends _ .line s hn) ?_
  rintro _ r ⟨x, hx, rfl, hr⟩
  refine ends_step (peek_run (by simp [symbols]) r) ?_
  refine ends_step rfl ?_
  split
  · exact ends_halt trivial
  · rename_i hempty
    have hskip : skip r = [] := not_not.mp hempty
    have hl : lex s = x.tokens := by rw [hr, lex_of_end hskip, List.append_nil]
    exact ends_pure ⟨x, hx, hl ▸ written_lex s, rfl⟩

theorem parsecmd_sound {s : List UInt8} {c : Cmd} (h : parsecmd s = .ok c) :
    ∃ x : Syn .line, x.Bounded ∧ Written x.tokens s ∧ x.cmd = c := by
  obtain ⟨r, hrun⟩ := parsecmd_eq_ok.mp h
  exact (parsecmd_ends s).of_eq_ok hrun

/-- **The parser and the language.**  `parsecmd` returns the command of a line that is in the language, and
panics at every other line. -/
theorem parsecmd_iff (s : List UInt8) :
    (∀ c, parsecmd s = .ok c ↔ ∃ x : Syn .line, x.Bounded ∧ Written x.tokens s ∧ x.cmd = c) ∧
      parsecmd s ≠ .error .sleep := by
  have hn : 4 * (lex s).length + Level.line.depth ≤ 4 * s.length + 4 := by
    have := length_lex_le s
    simp only [Level.depth]
    omega
  refine ⟨fun c => ⟨parsecmd_sound, ?_⟩, fun h => ?_⟩
  · rintro ⟨x, hx, hwritten, rfl⟩
    have hl := lex_written hwritten
    rw [hl] at hn
    obtain ⟨r, hrun, hr⟩ := parse_run x _ s [] hx (by rw [hl, List.append_nil]) (fun t ht => by cases ht) hn
    change parseline _ s = _ at hrun
    refine parsecmd_eq_ok.mpr ⟨[], ?_⟩
    rw [parseall, bind_of_ok hrun, bind_of_ok (peek_run (by simp [symbols]) r), gettoken_nil hr]
    rfl
  · unfold parsecmd at h
    rcases parsecmd_ends s with ⟨c, r, hrun, -⟩ | ⟨-, message, hrun⟩
    · rw [hrun] at h
      cases h
    · rw [hrun] at h
      cases h

/-- `ls>a|wc` -/
example : parsecmd [0x6c, 0x73, 0x3e, 0x61, 0x7c, 0x77, 0x63] =
    .ok (.pipe (.redir (.exec [[0x6c, 0x73]]) [0x61] 0x201 1) (.exec [[0x77, 0x63]])) := by decide +kernel

end Sh
end Xv6
end LfsXv6
