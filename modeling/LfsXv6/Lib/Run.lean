import Mathlib

/-!
# Run — finite runs of a deterministic machine

`Run step ok s is t` says that the inputs `is`, taken one after the other from `s`, lead to `t`, and
that each of them was admitted (`ok`) in the state it met.  Invariants, frame conditions and
simulations over whole runs are proved once here from their one-step form.
-/

namespace LfsXv6
namespace Lib

variable {σ ι : Type}

inductive Run (step : σ → ι → σ) (ok : σ → ι → Prop) : σ → List ι → σ → Prop where
  | nil (s : σ) : Run step ok s [] s
  | cons {s t : σ} {i : ι} {is : List ι} :
      ok s i → Run step ok (step s i) is t → Run step ok s (i :: is) t

namespace Run

variable {step : σ → ι → σ} {ok ok' : σ → ι → Prop} {s t u : σ} {i : ι} {is js : List ι}

/-- The end of a run is determined by its inputs. -/
theorem eq_foldl (h : Run step ok s is t) : t = is.foldl step s := by
  induction h with
  | nil s => rfl
  | cons _ _ ih => exact ih

theorem append (h₁ : Run step ok s is t) (h₂ : Run step ok t js u) :
    Run step ok s (is ++ js) u := by
  induction h₁ with
  | nil s => exact h₂
  | cons hok _ ih => exact Run.cons hok (ih h₂)

theorem snoc (h : Run step ok s is t) (hok : ok t i) : Run step ok s (is ++ [i]) (step t i) :=
  h.append (Run.cons hok (Run.nil _))

/-- A run passes through a state after each part of its inputs. -/
theorem split (h : Run step ok s (is ++ js) u) : ∃ t, Run step ok s is t ∧ Run step ok t js u := by
  induction is generalizing s with
  | nil => exact ⟨s, Run.nil s, h⟩
  | cons i is ih =>
      cases h with
      | cons hok hrest =>
          obtain ⟨t, h₁, h₂⟩ := ih hrest
          exact ⟨t, Run.cons hok h₁, h₂⟩

/-- **Invariant rule.**  What every admitted step keeps, every run keeps. -/
theorem invariant {I : σ → Prop} (hstep : ∀ s i, I s → ok s i → I (step s i))
    (h : Run step ok s is t) (hs : I s) : I t := by
  induction h with
  | nil s => exact hs
  | cons hok _ ih => exact ih (hstep _ _ hs hok)

/-- A run stays a run when its inputs are admitted for a weaker reason, given an invariant. -/
theorem mono {I : σ → Prop} (hinv : ∀ s i, I s → ok s i → I (step s i))
    (hok : ∀ s i, I s → ok s i → ok' s i) (h : Run step ok s is t) (hs : I s) :
    Run step ok' s is t := by
  induction h with
  | nil s => exact Run.nil s
  | cons hi _ ih => exact Run.cons (hok _ _ hs hi) (ih (hinv _ _ hs hi))

/-- The same for a reason that looks at the inputs of the run. -/
theorem imp (hok : ∀ s, ∀ i ∈ is, ok s i → ok' s i) (h : Run step ok s is t) :
    Run step ok' s is t := by
  induction h with
  | nil s => exact Run.nil s
  | cons hi _ ih =>
      exact Run.cons (hok _ _ List.mem_cons_self hi)
        (ih fun s j hj => hok s j (List.mem_cons_of_mem _ hj))

/-- **Simulation rule.**  A relation that every admitted step of one machine respects, whatever the
related state of the other, carries a run of the first over to the second. -/
theorem simulation {τ : Type} {step' : τ → ι → τ} {ok' : τ → ι → Prop} {R : σ → τ → Prop}
    (hstep : ∀ s u i, R s u → ok s i → ok' u i ∧ R (step s i) (step' u i))
    (h : Run step ok s is t) {u : τ} (hu : R s u) : ∃ v, Run step' ok' u is v ∧ R t v := by
  induction h generalizing u with
  | nil s => exact ⟨u, Run.nil u, hu⟩
  | cons hok _ ih =>
      obtain ⟨hok', hrel⟩ := hstep _ u _ hu hok
      obtain ⟨v, hrun, hv⟩ := ih hrel
      exact ⟨v, Run.cons hok' hrun, hv⟩

end Run

end Lib
end LfsXv6
