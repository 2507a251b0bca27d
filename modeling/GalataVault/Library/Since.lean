import Mathlib.Data.List.Induction
import GalataVault.Library.Machine

/-!
# What has held since

A run has kept a condition since an input if that input met another, and every later one has
met the condition. What a state holds can so be traced back to the input it comes from: if a
step either brings it about or finds it and keeps it, then wherever it holds there is an input
that brought it about, and nothing since has taken it away.
-/

namespace Machine

universe u v

variable {σ : Type u} {ι : Type v}

/-- Some input met `origin`, and every later one has met `keeps`. -/
def Since (step : σ → ι → σ) (start : σ) (origin keeps : σ → ι → Prop) (history : List ι) : Prop :=
  ∃ before input after, history = before ++ input :: after ∧ origin (run step start before) input ∧
    Throughout step keeps (step (run step start before) input) after

namespace Since

variable {step : σ → ι → σ} {start : σ} {origin keeps : σ → ι → Prop} {history : List ι}

theorem here {input : ι} (met : origin (run step start history) input) : Since step start origin keeps (history ++ [input]) :=
  ⟨history, input, [], rfl, met, trivial⟩

theorem later {input : ι} (since : Since step start origin keeps history) (kept : keeps (run step start history) input) :
    Since step start origin keeps (history ++ [input]) := by
  obtain ⟨before, first, after, rfl, met, throughout⟩ := since
  refine ⟨before, first, after ++ [input], by simp, met, throughout_append.mpr ⟨throughout, ?_, trivial⟩⟩
  rwa [run_append, run_cons] at kept

/-- What does not hold at first, and what a step that leads to it brings about or finds and
keeps, has an origin in every run that leads to it. -/
theorem of_steps (holds : σ → Prop) (initially : ¬holds start)
    (steps : ∀ before input, holds (run step start (before ++ [input])) →
      origin (run step start before) input ∨ holds (run step start before) ∧ keeps (run step start before) input)
    (now : holds (run step start history)) : Since step start origin keeps history := by
  induction history using List.reverseRecOn with
  | nil => exact absurd now initially
  | append_singleton before input inductionHypothesis =>
    obtain met | ⟨earlier, kept⟩ := steps before input now
    · exact here met
    · exact (inductionHypothesis earlier).later kept

theorem mono {weaker keepsLess : σ → ι → Prop} (since : Since step start origin keeps history)
    (origins : ∀ state input, origin state input → weaker state input)
    (keeping : ∀ state input, keeps state input → keepsLess state input) : Since step start weaker keepsLess history := by
  obtain ⟨before, input, after, same, met, throughout⟩ := since
  exact ⟨before, input, after, same, origins _ _ met, throughout.mono keeping⟩

end Since

end Machine
