import LfsXv6.Xv6.Sh
import LfsXv6.Xv6.UserMemory

/-!
# ShRun — the commands that the shell starts

`runcmd` forks, and moves descriptors with `close`, `dup`, `open` and `pipe`, each of which takes the lowest free
descriptor.  Every process has a table of descriptors of its own, so what a command is started with does not depend
on the order in which the processes run.
-/

namespace LfsXv6
namespace Xv6
namespace Sh

/-! ## Descriptors -/

/-- What a descriptor stands for: an open file of the shell, a file, or an end of a pipe.  A pipe is named by the
place of its `|` in the command: the turns on the way to it, last turn first. -/
inductive Channel where
  | given (n : Nat)
  | file (name : List UInt8) (mode : Nat)
  | reader (place : List Bool)
  | writer (place : List Bool)
deriving DecidableEq

/-- The descriptors of a process. -/
abbrev Fds : Type := Fin nofile → Option Channel

namespace Fds

def set (t : Fds) (fd : Nat) (x : Option Channel) : Fds := fun k => if k.val = fd then x else t k

/-- `close` -/
def close (t : Fds) (fd : Nat) : Fds := t.set fd none

/-- `fdalloc` -/
def alloc (t : Fds) (x : Channel) : Option (Fin nofile × Fds) :=
  match (List.finRange nofile).find? fun k => (t k).isNone with
  | none => none
  | some k => some (k, t.set k (some x))

/-- `dup`; the shell does not look at the result. -/
def dup (t : Fds) (k : Fin nofile) : Fds :=
  match t k with
  | none => t
  | some x =>
      match t.alloc x with
      | none => t
      | some (_, t) => t

/-- `pipe` -/
def pipe (t : Fds) (place : List Bool) : Option ((Fin nofile × Fin nofile) × Fds) :=
  match t.alloc (.reader place) with
  | none => none
  | some (a, t) =>
      match t.alloc (.writer place) with
      | none => none
      | some (b, t) => some ((a, b), t)

end Fds

/-! ## `runcmd` -/

/-- Which calls succeed, as far as it is not for want of a descriptor: `open` and `pipe` at a place of the command,
and `fork1` for its left and its right part. -/
structure World where
  opens : List Bool → Bool
  pipes : List Bool → Bool
  forks : List Bool → Bool → Bool

inductive Job where
  | exec (argv : List (List UInt8))
  | wait
deriving DecidableEq

/-- A process that calls `exec`, or one that waits for others; the place of its command, and its descriptors then. -/
structure Started where
  job : Job
  place : List Bool
  fds : Fds

/-- `runcmd` -/
def runcmd (w : World) : Cmd → List Bool → Fds → List Started
  | .exec argv, place, t => if argv = [] then [] else [⟨.exec argv, place, t⟩]
  | .redir cmd file mode fd, place, t =>
      if w.opens place then
        match (t.close fd).alloc (.file file mode) with
        | none => []
        | some (_, t) => runcmd w cmd (false :: place) t
      else []
  | .list left right, place, t =>
      if w.forks place false then
        runcmd w left (false :: place) t ++ ⟨.wait, place, t⟩ :: runcmd w right (true :: place) t
      else []
  | .pipe left right, place, t =>
      if w.pipes place then
        match t.pipe place with
        | none => []
        | some ((a, b), t) =>
            if w.forks place false then
              runcmd w left (false :: place) ((((t.close 1).dup b).close a).close b) ++
                if w.forks place true then
                  runcmd w right (true :: place) ((((t.close 0).dup a).close a).close b) ++
                    [⟨.wait, place, (t.close a).close b⟩]
                else []
            else []
      else []
  | .back cmd, place, t => if w.forks place false then runcmd w cmd (false :: place) t else []

/-! ## What the command says -/

/-- The processes of a command with the descriptors that they are to have: a redirection replaces one, a pipe joins
the output of one part to the input of the other, and nothing else changes. -/
def wiring : Cmd → List Bool → Fds → List Started
  | .exec argv, place, t => if argv = [] then [] else [⟨.exec argv, place, t⟩]
  | .redir cmd file mode fd, place, t => wiring cmd (false :: place) (t.set fd (some (.file file mode)))
  | .list left right, place, t =>
      wiring left (false :: place) t ++ ⟨.wait, place, t⟩ :: wiring right (true :: place) t
  | .pipe left right, place, t =>
      wiring left (false :: place) (t.set 1 (some (.writer place))) ++
        (wiring right (true :: place) (t.set 0 (some (.reader place))) ++ [⟨.wait, place, t⟩])
  | .back cmd, place, t => wiring cmd (false :: place) t

/-- The redirections are those of standard input and standard output. -/
def Cmd.Standard : Cmd → Prop
  | .exec _ => True
  | .redir cmd _ _ fd => (fd = 0 ∨ fd = 1) ∧ cmd.Standard
  | .pipe left right | .list left right => left.Standard ∧ right.Standard
  | .back cmd => cmd.Standard

/-- Standard input and standard output are open. -/
def Fds.Low (t : Fds) : Prop := ∀ k : Fin nofile, k.val = 0 ∨ k.val = 1 → t k ≠ none

/-- There are two free descriptors. -/
def Fds.Room (t : Fds) : Prop := ∃ a b, a ≠ b ∧ t a = none ∧ t b = none

/-- Nothing fails. -/
def World.Succeeds (w : World) : Prop :=
  ∀ place, w.opens place = true ∧ w.pipes place = true ∧ ∀ right, w.forks place right = true

namespace Fds

variable {t u : Fds} {x y : Channel} {fd : Nat} {k a b : Fin nofile} {place : List Bool}

/-- `fdalloc` takes a free descriptor. -/
theorem alloc_eq_some (h : t.alloc x = some (k, u)) : t k = none ∧ u = t.set k (some x) := by
  unfold alloc at h
  split at h
  · cases h
  · rename_i j hj
    cases h
    have hfree := List.find?_some hj
    exact ⟨Option.isNone_iff_eq_none.mp hfree, rfl⟩

theorem alloc_of_free (x : Channel) (h : t k = none) : ∃ j u, t.alloc x = some (j, u) := by
  unfold alloc
  split
  · rename_i hnone
    have hk := List.find?_eq_none.mp hnone k (List.mem_finRange k)
    rw [h] at hk
    exact absurd rfl hk
  · exact ⟨_, _, rfl⟩

/-- A low descriptor that has been closed is the next one to be taken. -/
theorem alloc_closed (h : t.Low) (hfd : fd = 0 ∨ fd = 1) (x : Channel) :
    ∃ k, (t.close fd).alloc x = some (k, t.set fd (some x)) := by
  have hset : ((t.close fd).set fd (some x)) = t.set fd (some x) := by
    funext k
    simp only [close, set]
    split <;> rfl
  rcases hfd with rfl | rfl
  · refine ⟨⟨0, by decide⟩, ?_⟩
    have hfind : (List.finRange nofile).find? (fun k => ((t.close 0) k).isNone) = some ⟨0, by decide⟩ := rfl
    rw [alloc, hfind]
    dsimp only
    rw [hset]
  · refine ⟨⟨1, by decide⟩, ?_⟩
    have hzero : ((t.close 1) ⟨0, by decide⟩).isNone = false := by
      obtain ⟨y, hy⟩ := Option.ne_none_iff_exists'.mp (h ⟨0, by decide⟩ (.inl rfl))
      show (t ⟨0, by decide⟩).isNone = false
      rw [hy]
      rfl
    have hfind : (List.finRange nofile).find? (fun k => ((t.close 1) k).isNone) = some ⟨1, by decide⟩ := by
      rw [show List.finRange nofile = ⟨0, by decide⟩ :: ⟨1, by decide⟩ :: (List.finRange nofile).drop 2 from rfl,
        List.find?_cons_of_neg (by rw [hzero]; decide), List.find?_cons_of_pos rfl]
    rw [alloc, hfind]
    dsimp only
    rw [hset]

theorem pipe_eq_some (h : t.pipe place = some ((a, b), u)) :
    t a = none ∧ t b = none ∧ a ≠ b ∧ u = (t.set a (some (.reader place))).set b (some (.writer place)) := by
  unfold pipe at h
  split at h
  · cases h
  · rename_i a' t' ha
    split at h
    · cases h
    · rename_i b' u' hb
      cases h
      obtain ⟨hfree, rfl⟩ := alloc_eq_some ha
      obtain ⟨hfree', rfl⟩ := alloc_eq_some hb
      have hne : b ≠ a := by
        rintro rfl
        simp [set] at hfree'
      have hval : b.val ≠ a.val := fun hc => hne (Fin.ext hc)
      simp only [set, if_neg hval] at hfree'
      exact ⟨hfree, hfree', hne.symm, rfl⟩

theorem pipe_of_room (place : List Bool) (h : t.Room) : (t.pipe place).isSome := by
  obtain ⟨a, b, hne, ha, hb⟩ := h
  obtain ⟨j, u, hj⟩ := alloc_of_free (.reader place) ha
  obtain ⟨hfree, rfl⟩ := alloc_eq_some hj
  have hother : ∃ k, (t.set j (some (.reader place))) k = none := by
    by_cases hja : j = a
    · refine ⟨b, ?_⟩
      have hval : b.val ≠ j.val := fun hc => hne (by rw [← hja]; exact Fin.ext hc.symm)
      simp only [set, if_neg hval, hb]
    · refine ⟨a, ?_⟩
      have hval : a.val ≠ j.val := fun hc => hja (Fin.ext hc.symm)
      simp only [set, if_neg hval, ha]
  obtain ⟨k, hk⟩ := hother
  obtain ⟨j', u', hj'⟩ := alloc_of_free (.writer place) hk
  unfold pipe
  rw [hj]
  dsimp only
  rw [hj']
  rfl

theorem Low.set (h : t.Low) (fd : Nat) (x : Channel) : (t.set fd (some x)).Low := by
  intro k hk
  unfold Fds.set
  split
  · rintro ⟨⟩
  · exact h k hk

theorem Room.set (h : t.Room) (hlow : t.Low) (hfd : fd = 0 ∨ fd = 1) (x : Channel) : (t.set fd (some x)).Room := by
  obtain ⟨a, b, hne, ha, hb⟩ := h
  have hother : ∀ k : Fin nofile, t k = none → k.val ≠ fd := by
    rintro k hk rfl
    exact hlow k hfd hk
  refine ⟨a, b, hne, ?_, ?_⟩
  · simp only [Fds.set, if_neg (hother a ha), ha]
  · simp only [Fds.set, if_neg (hother b hb), hb]

/-- `close(fd); dup(k); close(p[0]); close(p[1])`, where `k` is an end of the pipe `p`: only `fd` changes. -/
theorem redirected (hlow : t.Low) (hfd : fd = 0 ∨ fd = 1) (hp : t.pipe place = some ((a, b), u)) (hk : u k = some x)
    (hends : k = a ∨ k = b) : (((u.close fd).dup k).close a).close b = t.set fd (some x) := by
  obtain ⟨ha, hb, hne, rfl⟩ := pipe_eq_some hp
  have hother : ∀ j : Fin nofile, t j = none → j.val ≠ fd := by
    rintro j hj rfl
    exact hlow j hfd hj
  have hkfd : k.val ≠ fd := by
    rcases hends with rfl | rfl
    · exact hother _ ha
    · exact hother _ hb
  have hlow' : ((t.set a (some (.reader place))).set b (some (.writer place))).Low := (hlow.set _ _).set _ _
  obtain ⟨j, hj⟩ := alloc_closed hlow' hfd x
  have hdup : (((t.set a (some (.reader place))).set b (some (.writer place))).close fd).dup k =
      ((t.set a (some (.reader place))).set b (some (.writer place))).set fd (some x) := by
    have hclosed : (((t.set a (some (.reader place))).set b (some (.writer place))).close fd) k = some x := by
      rw [← hk, close, Fds.set, if_neg hkfd]
    rw [dup, hclosed]
    dsimp only
    rw [hj]
  rw [hdup]
  funext j
  simp only [close, Fds.set]
  by_cases hjb : j.val = b.val
  · rw [if_pos hjb, Fin.ext hjb, if_neg (hother b hb), hb]
  · by_cases hja : j.val = a.val
    · rw [if_neg hjb, if_pos hja, Fin.ext hja, if_neg (hother a ha), ha]
    · simp only [if_neg hjb, if_neg hja]

/-- `close(p[0]); close(p[1])` -/
theorem restored (hp : t.pipe place = some ((a, b), u)) : (u.close a).close b = t := by
  obtain ⟨ha, hb, -, rfl⟩ := pipe_eq_some hp
  funext j
  simp only [close, Fds.set]
  by_cases hjb : j.val = b.val
  · rw [if_pos hjb, Fin.ext hjb, hb]
  · by_cases hja : j.val = a.val
    · rw [if_neg hjb, if_pos hja, Fin.ext hja, ha]
    · simp only [if_neg hjb, if_neg hja]

end Fds

/-! ## Commands are wired as they say -/

section Wired

variable {w : World} {c left right : Cmd} {place : List Bool} {t : Fds} {file : List UInt8} {mode fd : Nat}

theorem runcmd_redir (hlow : t.Low) (hfd : fd = 0 ∨ fd = 1) : runcmd w (.redir c file mode fd) place t =
    if w.opens place then runcmd w c (false :: place) (t.set fd (some (.file file mode))) else [] := by
  obtain ⟨k, hk⟩ := Fds.alloc_closed hlow hfd (.file file mode)
  rw [runcmd, hk]

theorem runcmd_pipe (hlow : t.Low) : runcmd w (.pipe left right) place t =
    if w.pipes place ∧ (t.pipe place).isSome then
      if w.forks place false then
        runcmd w left (false :: place) (t.set 1 (some (.writer place))) ++
          if w.forks place true then
            runcmd w right (true :: place) (t.set 0 (some (.reader place))) ++ [⟨.wait, place, t⟩]
          else []
      else []
    else [] := by
  rw [runcmd]
  cases hp : t.pipe place with
  | none => simp
  | some r =>
      obtain ⟨⟨a, b⟩, u⟩ := r
      obtain ⟨-, -, hne, hu⟩ := Fds.pipe_eq_some hp
      have hval : a.val ≠ b.val := fun hc => hne (Fin.ext hc)
      have hwriter : u b = some (.writer place) := by
        rw [hu]
        simp [Fds.set]
      have hreader : u a = some (.reader place) := by
        rw [hu]
        simp [Fds.set, hval]
      dsimp only
      rw [Fds.redirected hlow (.inr rfl) hp hwriter (.inr rfl), Fds.redirected hlow (.inl rfl) hp hreader (.inl rfl),
        Fds.restored hp]
      simp

/-- A process that fails starts nothing more, and every other one is started as the command says. -/
theorem runcmd_sublist (w : World) (c : Cmd) (hc : c.Standard) (place : List Bool) (t : Fds) (hlow : t.Low) :
    (runcmd w c place t).Sublist (wiring c place t) := by
  induction c generalizing place t with
  | exec argv => exact List.Sublist.refl _
  | redir c file mode fd ih =>
      rw [runcmd_redir hlow hc.1, wiring]
      split
      · exact ih hc.2 _ _ (hlow.set _ _)
      · exact List.nil_sublist _
  | pipe left right ihl ihr =>
      rw [runcmd_pipe hlow, wiring]
      split
      · split
        · refine (ihl hc.1 _ _ (hlow.set _ _)).append ?_
          split
          · exact (ihr hc.2 _ _ (hlow.set _ _)).append (List.Sublist.refl _)
          · exact List.nil_sublist _
        · exact List.nil_sublist _
      · exact List.nil_sublist _
  | list left right ihl ihr =>
      rw [runcmd, wiring]
      split
      · exact (ihl hc.1 _ _ hlow).append ((ihr hc.2 _ _ hlow).cons_cons _)
      · exact List.nil_sublist _
  | back c ih =>
      rw [runcmd, wiring]
      split
      · exact ih hc _ _ hlow
      · exact List.nil_sublist _

theorem runcmd_eq (hw : w.Succeeds) (c : Cmd) (hc : c.Standard) (place : List Bool) (t : Fds) (hlow : t.Low)
    (hroom : t.Room) : runcmd w c place t = wiring c place t := by
  induction c generalizing place t with
  | exec argv => rfl
  | redir c file mode fd ih =>
      rw [runcmd_redir hlow hc.1, if_pos (hw place).1, wiring]
      exact ih hc.2 _ _ (hlow.set _ _) (hroom.set hlow hc.1 _)
  | pipe left right ihl ihr =>
      rw [runcmd_pipe hlow, if_pos ⟨(hw place).2.1, Fds.pipe_of_room place hroom⟩, if_pos ((hw place).2.2 false),
        if_pos ((hw place).2.2 true), wiring, ihl hc.1 _ _ (hlow.set _ _) (hroom.set hlow (.inr rfl) _),
        ihr hc.2 _ _ (hlow.set _ _) (hroom.set hlow (.inl rfl) _)]
  | list left right ihl ihr =>
      rw [runcmd, if_pos ((hw place).2.2 false), wiring, ihl hc.1 _ _ hlow hroom, ihr hc.2 _ _ hlow hroom]
  | back c ih =>
      rw [runcmd, if_pos ((hw place).2.2 false), wiring, ih hc _ _ hlow hroom]

end Wired

/-! ## Command lines -/

theorem Cmd.Standard.wraps {c : Cmd} (h : c.Standard) (redirs : List Redir) : (redirs.foldl Redir.wrap c).Standard := by
  induction redirs generalizing c with
  | nil => exact h
  | cons r redirs ih =>
      refine ih ?_
      unfold Redir.wrap
      split
      · exact ⟨.inl rfl, h⟩
      · exact ⟨.inr rfl, h⟩
      · exact ⟨.inr rfl, h⟩

theorem Cmd.Standard.backs {c : Cmd} (h : c.Standard) (n : Nat) : (Cmd.back^[n] c).Standard := by
  induction n generalizing c with
  | zero => exact h
  | succ n ih => exact ih (c := .back c) h

/-- The parser makes no other redirections. -/
theorem Syn.standard {v : Level} (x : Syn v) : x.cmd.Standard := by
  induction x with
  | line p backs ih => exact ih.backs backs
  | list p backs rest ihp ihr => exact ⟨ihp.backs backs, ihr⟩
  | one e ih => exact ih
  | pipe e rest ihe ihr => exact ⟨ihe, ihr⟩
  | exec redirs args => exact Cmd.Standard.wraps (c := .exec _) trivial _
  | group b ih => exact ih
  | block l redirs ih => exact ih.wraps redirs

variable {s : List UInt8} {c : Cmd} {w : World} {t : Fds} {x : Started}

/-- **Commands run as they are written.**  For every command line, every process that the shell starts has the
descriptors that the line gives it, and no others; and if nothing fails, all processes of the line are started. -/
theorem commands_wired (hs : parsecmd s = .ok c) (hlow : t.Low) :
    (runcmd w c [] t).Sublist (wiring c [] t) ∧
      (w.Succeeds → t.Room → runcmd w c [] t = wiring c [] t) := by
  obtain ⟨y, -, -, rfl⟩ := parsecmd_sound hs
  exact ⟨runcmd_sublist w _ y.standard [] t hlow, fun hw hroom => runcmd_eq hw _ y.standard [] t hlow hroom⟩

/-! ## Who has an end of a pipe -/

/-- An end of a pipe is standard input on its right side, or standard output on its left side. -/
def Fds.Sided (t : Fds) (place : List Bool) : Prop :=
  ∀ (k : Fin nofile) (p : List Bool), (t k = some (.writer p) → k.val = 1 ∧ false :: p <:+ place) ∧
    (t k = some (.reader p) → k.val = 0 ∧ true :: p <:+ place)

namespace Fds.Sided

variable {place : List Bool}

/-- The turns of a part of the command. -/
theorem deeper (h : t.Sided place) (b : Bool) : t.Sided (b :: place) := fun k p =>
  ⟨fun hk => ⟨((h k p).1 hk).1, ((h k p).1 hk).2.trans (List.suffix_cons _ _)⟩,
    fun hk => ⟨((h k p).2 hk).1, ((h k p).2 hk).2.trans (List.suffix_cons _ _)⟩⟩

theorem set (h : t.Sided place) (fd : Nat) (y : Channel)
    (hy : ∀ p, (y = .writer p → fd = 1 ∧ false :: p <:+ place) ∧ (y = .reader p → fd = 0 ∧ true :: p <:+ place)) :
    (t.set fd (some y)).Sided place := by
  intro k p
  unfold Fds.set
  split
  · rename_i hk
    rw [hk]
    exact ⟨fun heq => (hy p).1 (Option.some.inj heq), fun heq => (hy p).2 (Option.some.inj heq)⟩
  · exact h k p

end Fds.Sided

/-- **Step lemma**, over the command. -/
theorem wiring_sided (c : Cmd) (place : List Bool) (t : Fds) (h : t.Sided place) :
    ∀ x ∈ wiring c place t, x.fds.Sided x.place := by
  induction c generalizing place t with
  | exec argv =>
      intro x hx
      rw [wiring] at hx
      split at hx
      · cases hx
      · obtain rfl := List.mem_singleton.mp hx
        exact h
  | redir c file mode fd ih =>
      exact ih _ _ ((h.deeper false).set _ _ fun p => ⟨by rintro ⟨⟩, by rintro ⟨⟩⟩)
  | pipe left right ihl ihr =>
      intro x hx
      rw [wiring] at hx
      rcases List.mem_append.mp hx with hx | hx
      · refine ihl _ _ ((h.deeper false).set _ _ fun p => ⟨?_, by rintro ⟨⟩⟩) x hx
        rintro ⟨⟩
        exact ⟨rfl, List.suffix_refl _⟩
      · rcases List.mem_append.mp hx with hx | hx
        · refine ihr _ _ ((h.deeper true).set _ _ fun p => ⟨by rintro ⟨⟩, ?_⟩) x hx
          rintro ⟨⟩
          exact ⟨rfl, List.suffix_refl _⟩
        · obtain rfl := List.mem_singleton.mp hx
          exact h
  | list left right ihl ihr =>
      intro x hx
      rw [wiring] at hx
      rcases List.mem_append.mp hx with hx | hx
      · exact ihl _ _ (h.deeper false) x hx
      · rcases List.mem_cons.mp hx with rfl | hx
        · exact h
        · exact ihr _ _ (h.deeper true) x hx
  | back c ih => exact ih _ _ (h.deeper false)

/-- **Ends of pipes.**  Whatever fails, the write end of a pipe is nowhere but the standard output of processes on its
left side, and the read end nowhere but the standard input of processes on its right side: when the left side is done,
the right side gets the end of its input. -/
theorem pipe_ends_held (hs : parsecmd s = .ok c) (hlow : t.Low)
    (hgiven : ∀ k p, t k ≠ some (.writer p) ∧ t k ≠ some (.reader p)) (hx : x ∈ runcmd w c [] t) (k : Fin nofile)
    (p : List Bool) : (x.fds k = some (.writer p) → k.val = 1 ∧ false :: p <:+ x.place) ∧
      (x.fds k = some (.reader p) → k.val = 0 ∧ true :: p <:+ x.place) := by
  obtain ⟨y, -, -, rfl⟩ := parsecmd_sound hs
  have hstart : t.Sided [] := fun k p => ⟨fun hk => absurd hk (hgiven k p).1, fun hk => absurd hk (hgiven k p).2⟩
  exact wiring_sided _ _ _ hstart x ((runcmd_sublist w _ y.standard [] t hlow).subset hx) k p

/-- `a|b>c` -/
def pipeLine : List UInt8 := [0x61, 0x7c, 0x62, 0x3e, 0x63]

def pipeLineCmd : Cmd := .pipe (.exec [[0x61]]) (.redir (.exec [[0x62]]) [0x63] 0x201 1)

theorem parsecmd_pipeLine : parsecmd pipeLine = .ok pipeLineCmd := by decide +kernel

/-- The shell has three descriptors open. -/
def threeOpen : Fds := fun k => if k.val < 3 then some (.given k) else none

theorem threeOpen_low : threeOpen.Low := by
  rintro k (hk | hk) <;> simp [threeOpen, hk]

theorem threeOpen_given (k : Fin nofile) (p : List Bool) :
    threeOpen k ≠ some (.writer p) ∧ threeOpen k ≠ some (.reader p) := by
  unfold threeOpen
  split <;> simp

theorem threeOpen_room : threeOpen.Room := ⟨⟨3, by decide⟩, ⟨4, by decide⟩, by decide, rfl, rfl⟩

/-- Nothing fails. -/
def calm : World := ⟨fun _ => true, fun _ => true, fun _ _ => true⟩

theorem calm_succeeds : calm.Succeeds := fun _ => ⟨rfl, rfl, fun _ => rfl⟩

theorem commands_wired_pipeLine :
    (runcmd calm pipeLineCmd [] threeOpen).Sublist (wiring pipeLineCmd [] threeOpen) ∧
      runcmd calm pipeLineCmd [] threeOpen = wiring pipeLineCmd [] threeOpen := by
  obtain ⟨hsub, heq⟩ := commands_wired (w := calm) parsecmd_pipeLine threeOpen_low
  exact ⟨hsub, heq calm_succeeds threeOpen_room⟩

theorem pipe_ends_held_pipeLine : ∃ x ∈ runcmd calm pipeLineCmd [] threeOpen,
    x.fds ⟨1, by decide⟩ = some (.writer []) ∧ [false] <:+ x.place := by
  have hmem : ⟨.exec [[0x61]], [false], threeOpen.set 1 (some (.writer []))⟩ ∈
      runcmd calm pipeLineCmd [] threeOpen := by
    rw [runcmd_eq calm_succeeds pipeLineCmd ⟨trivial, .inr rfl, trivial⟩ [] _ threeOpen_low threeOpen_room]
    exact List.mem_append_left _ (List.mem_singleton.mpr rfl)
  have hwriter : (threeOpen.set 1 (some (.writer []))) ⟨1, by decide⟩ = some (.writer []) := rfl
  have hheld := pipe_ends_held parsecmd_pipeLine threeOpen_low threeOpen_given hmem ⟨1, by decide⟩ []
  exact ⟨_, hmem, hwriter, (hheld.1 hwriter).2⟩

end Sh
end Xv6
end LfsXv6
