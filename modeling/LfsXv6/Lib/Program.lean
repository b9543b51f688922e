import Mathlib

/-!
# Program — sequential programs that return, panic or block

A program over the state `σ` either returns a value and a new state, or stops: it panics, or it waits
for a lock that nobody else is going to release.  `Keeps g x` says that `x` leaves the observation `g`
of the state as it was whenever it returns, and `Ends x s E Q` that it returns from `s` with `Q`, or
panics where `E` holds.  `Shows g q x y` says that `x` does to the observation `g` what
`y` does.
-/

namespace LfsXv6
namespace Lib

/-- Why a program does not return. -/
inductive Stop where
  | panic (message : String)
  | sleep
deriving DecidableEq

/-- A program over the state `σ` that returns an `α`. -/
def Prog (σ α : Type) : Type := σ → Except Stop (α × σ)

namespace Prog

variable {σ α β γ : Type}

instance : Monad (Prog σ) where
  pure a := fun s => .ok (a, s)
  bind x f := fun s =>
    match x s with
    | .ok (a, t) => f a t
    | .error e => .error e

/-- Stop with a message. -/
def halt (message : String) : Prog σ α := fun _ => .error (.panic message)

/-- Look at the state. -/
def look (g : σ → α) : Prog σ α := fun s => .ok (g s, s)

/-- Change the state. -/
def assign (g : σ → σ) : Prog σ Unit := fun s => .ok ((), g s)

/-- Run the body for each element of a list, in order. -/
def each (body : α → Prog σ Unit) : List α → Prog σ Unit
  | [] => pure ()
  | a :: as => do
      body a
      each body as

/-! ## Running -/

section Run

variable {x : Prog σ α} {f : α → Prog σ β} {s t u : σ} {a : α} {b : β}

@[simp] theorem pure_apply (a : α) (s : σ) : (pure a : Prog σ α) s = .ok (a, s) := rfl

theorem bind_of_ok (h : x s = .ok (a, t)) : (x >>= f) s = f a t := by
  show (match x s with
    | .ok (a, t) => f a t
    | .error e => .error e) = f a t
  rw [h]

theorem bind_of_error {e : Stop} (h : x s = .error e) : (x >>= f) s = .error e := by
  show (match x s with
    | .ok (a, t) => f a t
    | .error e => .error e) = .error e
  rw [h]

/-- A sequence that returns returns at both places. -/
theorem bind_eq_ok (h : (x >>= f) s = .ok (b, u)) :
    ∃ a t, x s = .ok (a, t) ∧ f a t = .ok (b, u) := by
  cases hx : x s with
  | error e =>
      rw [bind_of_error hx] at h
      cases h
  | ok r =>
      rw [bind_of_ok (a := r.1) (t := r.2) hx] at h
      exact ⟨r.1, r.2, rfl, h⟩

theorem look_eq_ok {g : σ → α} (h : look g s = .ok (a, t)) : a = g s ∧ s = t := by
  cases h
  exact ⟨rfl, rfl⟩

theorem assign_eq_ok {g : σ → σ} {r : Unit} (h : assign g s = .ok (r, t)) : t = g s := by
  cases h
  rfl

end Run

/-! ## Observations that are kept -/

/-- Whenever `x` returns, the observation `g` is what it was. -/
def Keeps (g : σ → γ) (x : Prog σ α) : Prop := ∀ s a t, x s = .ok (a, t) → g t = g s

section Keeps

variable {g : σ → γ} {x : Prog σ α} {f : α → Prog σ β}

theorem keeps_pure (a : α) : Keeps g (pure a : Prog σ α) := by
  rintro s b t h
  cases h
  rfl

theorem keeps_halt (message : String) : Keeps g (halt message : Prog σ α) := by
  rintro s b t h
  cases h

theorem keeps_look (l : σ → α) : Keeps g (look l) := by
  rintro s b t h
  cases h
  rfl

theorem keeps_bind (hx : Keeps g x) (hf : ∀ a, Keeps g (f a)) : Keeps g (x >>= f) := by
  intro s b u h
  obtain ⟨a, t, hxa, hfa⟩ := bind_eq_ok h
  rw [hf a t b u hfa, hx s a t hxa]

theorem keeps_ite {p : Prop} [Decidable p] {y : Prog σ α} (hx : Keeps g x) (hy : Keeps g y) :
    Keeps g (if p then x else y) := by
  split
  · exact hx
  · exact hy

theorem keeps_each {body : α → Prog σ Unit} (h : ∀ a, Keeps g (body a)) (as : List α) :
    Keeps g (each body as) := by
  induction as with
  | nil => exact keeps_pure ()
  | cons a as ih => exact keeps_bind (h a) fun _ => ih

end Keeps

/-! ## Changes that are limited -/

/-- Whenever `x` returns, it has led from a state to one that `R` relates it to. -/
def Moves (R : σ → σ → Prop) (x : Prog σ α) : Prop := ∀ s a t, x s = .ok (a, t) → R s t

section Moves

variable {R : σ → σ → Prop} {x : Prog σ α} {f : α → Prog σ β}

theorem moves_pure (hrefl : ∀ s, R s s) (a : α) : Moves R (pure a : Prog σ α) := by
  rintro s b t h
  cases h
  exact hrefl s

theorem moves_halt (message : String) : Moves R (halt message : Prog σ α) := by
  rintro s b t h
  cases h

theorem moves_look (hrefl : ∀ s, R s s) (l : σ → α) : Moves R (look l) := by
  rintro s b t h
  cases h
  exact hrefl s

theorem moves_assign {g : σ → σ} (h : ∀ s, R s (g s)) : Moves R (assign g) := by
  rintro s b t hg
  cases hg
  exact h s

theorem moves_bind (htrans : ∀ s t u, R s t → R t u → R s u) (hx : Moves R x) (hf : ∀ a, Moves R (f a)) :
    Moves R (x >>= f) := by
  intro s b u h
  obtain ⟨a, t, hxa, hfa⟩ := bind_eq_ok h
  exact htrans s t u (hx s a t hxa) (hf a t b u hfa)

theorem moves_ite {p : Prop} [Decidable p] {y : Prog σ α} (hx : Moves R x) (hy : Moves R y) :
    Moves R (if p then x else y) := by
  split
  · exact hx
  · exact hy

theorem moves_each (hrefl : ∀ s, R s s) (htrans : ∀ s t u, R s t → R t u → R s u)
    {body : α → Prog σ Unit} (h : ∀ a, Moves R (body a)) (as : List α) : Moves R (each body as) := by
  induction as with
  | nil => exact moves_pure hrefl ()
  | cons a as ih => exact moves_bind htrans (h a) fun _ => ih

end Moves

/-! ## Ends of a run -/

/-- From `s`, `x` returns with `Q`, or panics where `E` holds. -/
def Ends (x : Prog σ α) (s : σ) (E : Prop) (Q : α → σ → Prop) : Prop :=
  (∃ a t, x s = .ok (a, t) ∧ Q a t) ∨ (E ∧ ∃ message, x s = .error (.panic message))

section Ends

variable {x : Prog σ α} {f : α → Prog σ β} {s t : σ} {a : α} {E E' : Prop}
variable {Q Q' : α → σ → Prop} {R : β → σ → Prop}

theorem ends_of_ok (h : x s = .ok (a, t)) (hq : Q a t) : Ends x s E Q := .inl ⟨a, t, h, hq⟩

theorem ends_pure (h : Q a s) : Ends (pure a) s E Q := ends_of_ok rfl h

theorem ends_halt {message : String} (h : E) : Ends (halt message : Prog σ α) s E Q :=
  .inr ⟨h, message, rfl⟩

/-- A first step that is known to return. -/
theorem ends_step (h : x s = .ok (a, t)) (hf : Ends (f a) t E R) : Ends (x >>= f) s E R := by
  unfold Ends
  rw [bind_of_ok h]
  exact hf

theorem ends_bind (h : Ends x s E Q) (hf : ∀ a t, Q a t → Ends (f a) t E R) :
    Ends (x >>= f) s E R := by
  rcases h with ⟨a, t, hx, hq⟩ | ⟨he, message, hx⟩
  · exact ends_step hx (hf a t hq)
  · exact .inr ⟨he, message, bind_of_error hx⟩

theorem Ends.mono (h : Ends x s E Q) (he : E → E') (hq : ∀ a t, Q a t → Q' a t) :
    Ends x s E' Q' := by
  rcases h with ⟨a, t, hx, h⟩ | ⟨h, hx⟩
  · exact .inl ⟨a, t, hx, hq a t h⟩
  · exact .inr ⟨he h, hx⟩

theorem Ends.of_eq_ok (h : Ends x s E Q) (hx : x s = .ok (a, t)) : Q a t := by
  rcases h with ⟨b, u, hb, hq⟩ | ⟨_, message, he⟩
  · rw [hx] at hb
    cases hb
    exact hq
  · rw [hx] at he
    cases he

theorem Ends.returns (h : Ends x s E Q) (he : ¬ E) : ∃ a t, x s = .ok (a, t) ∧ Q a t := by
  rcases h with hok | ⟨h, _⟩
  · exact hok
  · exact absurd h he

end Ends

/-! ## Projections -/

/-- Seen through `g`, and its result through `q`, `x` does what `y` does. -/
def Shows {τ α' : Type} (g : σ → τ) (q : α → α') (x : Prog σ α) (y : Prog τ α') : Prop :=
  ∀ s, (∀ a t, x s = .ok (a, t) → y (g s) = .ok (q a, g t)) ∧ ∀ e, x s = .error e → y (g s) = .error e

section Shows

variable {τ α' β' : Type} {g : σ → τ} {q : α → α'} {q' : β → β'} {x : Prog σ α} {y : Prog τ α'}
variable {f : α → Prog σ β} {f' : α' → Prog τ β'}

theorem shows_pure (a : α) : Shows g q (pure a) (pure (q a)) := by
  refine fun s => ⟨?_, ?_⟩
  · rintro b t h
    cases h
    rfl
  · rintro e h
    cases h

theorem shows_halt (message : String) : Shows g q (halt message) (halt message) := by
  refine fun s => ⟨?_, ?_⟩
  · rintro b t h
    cases h
  · rintro e h
    cases h
    rfl

theorem shows_look {l : σ → α} {l' : τ → α'} (h : ∀ s, l' (g s) = q (l s)) :
    Shows g q (look l) (look l') := by
  refine fun s => ⟨?_, ?_⟩
  · rintro b t hl
    cases hl
    rw [look, h]
  · rintro e hl
    cases hl

theorem shows_assign {l : σ → σ} {l' : τ → τ} (h : ∀ s, g (l s) = l' (g s)) :
    Shows g id (assign l) (assign l') := by
  refine fun s => ⟨?_, ?_⟩
  · rintro b t hl
    cases hl
    rw [h]
    rfl
  · rintro e hl
    cases hl

theorem shows_bind (hx : Shows g q x y) (hf : ∀ a, Shows g q' (f a) (f' (q a))) :
    Shows g q' (x >>= f) (y >>= f') := by
  intro s
  cases hs : x s with
  | error e =>
      rw [bind_of_error hs, bind_of_error ((hx s).2 e hs)]
      refine ⟨?_, ?_⟩
      · rintro b u h
        cases h
      · rintro e' h
        cases h
        rfl
  | ok r =>
      rw [bind_of_ok (a := r.1) (t := r.2) hs, bind_of_ok ((hx s).1 r.1 r.2 hs)]
      exact hf r.1 r.2

theorem shows_ite {p : Prop} [Decidable p] {x' : Prog σ α} {y' : Prog τ α'} (h : Shows g q x y)
    (h' : Shows g q x' y') : Shows g q (if p then x else x') (if p then y else y') := by
  split
  · exact h
  · exact h'

end Shows

/-! ## Sequences of calls -/

/-- The calls `is` are executed one after the other and return `os`; each of them is admitted (`ok`) in
the state it meets. -/
inductive Chain {ι ο : Type} (run : ι → Prog σ ο) (ok : σ → ι → Prop) :
    σ → List ι → List ο → σ → Prop where
  | nil (s : σ) : Chain run ok s [] [] s
  | cons {s t u : σ} {i : ι} {o : ο} {is : List ι} {os : List ο} : ok s i → run i s = .ok (o, t) →
      Chain run ok t is os u → Chain run ok s (i :: is) (o :: os) u

/-- **Invariant rule.**  What every admitted call keeps, a sequence of calls keeps. -/
theorem Chain.invariant {ι ο : Type} {run : ι → Prog σ ο} {ok : σ → ι → Prop} {I : σ → Prop}
    (hstep : ∀ s i o t, I s → ok s i → run i s = .ok (o, t) → I t) {s t : σ} {is : List ι} {os : List ο}
    (h : Chain run ok s is os t) (hs : I s) : I t := by
  induction h with
  | nil s => exact hs
  | cons hok hrun _ ih => exact ih (hstep _ _ _ _ hs hok hrun)

/-- An abstract system takes the calls `is` and returns `os`. -/
inductive Traces {τ ι ο : Type} (step : τ → ι → ο → τ → Prop) : τ → List ι → List ο → τ → Prop where
  | nil (x : τ) : Traces step x [] [] x
  | cons {x y z : τ} {i : ι} {o : ο} {is : List ι} {os : List ο} : step x i o y → Traces step y is os z →
      Traces step x (i :: is) (o :: os) z

/-- **Refinement rule.**  Where the abstract system can answer every admitted call, it can answer a sequence
of calls. -/
theorem Chain.refine {τ ι ο : Type} {run : ι → Prog σ ο} {ok : σ → ι → Prop} {R : σ → τ → Prop}
    {step : τ → ι → ο → τ → Prop}
    (hstep : ∀ s x i o t, R s x → ok s i → run i s = .ok (o, t) → ∃ y, R t y ∧ step x i o y) {s t : σ}
    {is : List ι} {os : List ο} (h : Chain run ok s is os t) {x : τ} (hx : R s x) :
    ∃ y, R t y ∧ Traces step x is os y := by
  induction h generalizing x with
  | nil s => exact ⟨x, hx, .nil x⟩
  | cons hok hrun _ ih =>
      obtain ⟨y, hy, hxy⟩ := hstep _ _ _ _ _ hx hok hrun
      obtain ⟨z, hz, hyz⟩ := ih hy
      exact ⟨z, hz, .cons hxy hyz⟩

end Prog

end Lib
end LfsXv6
