/-!
# Runs of a machine

A machine is a step function from a state and an input to the next state, and a
run is its fold over a list of inputs. What depends on the order of inputs is
said about each input together with the state it meets, so that a condition on a
run can name a guard that only the reached state decides.

The rules below are the two inductions over runs: a property every step keeps,
and a transitive relation every step satisfies.
-/

namespace Machine

universe u v

variable {σ : Type u} {ι : Type v}

/-- The state after a list of inputs. -/
def run (step : σ → ι → σ) (state : σ) (inputs : List ι) : σ := inputs.foldl step state

variable {step : σ → ι → σ}

@[simp] theorem run_nil (state : σ) : run step state [] = state := rfl

@[simp] theorem run_cons (state : σ) (input : ι) (inputs : List ι) :
    run step state (input :: inputs) = run step (step state input) inputs := rfl

theorem run_append (state : σ) (inputs more : List ι) :
    run step state (inputs ++ more) = run step (run step state inputs) more := List.foldl_append

/-- Every input satisfies `P` in the state it meets. -/
def Throughout (step : σ → ι → σ) (P : σ → ι → Prop) : σ → List ι → Prop
  | _, [] => True
  | state, input :: inputs => P state input ∧ Throughout step P (step state input) inputs

/-- A condition that can be decided of each step can be decided of a run. -/
instance Throughout.decidable (step : σ → ι → σ) (P : σ → ι → Prop) [∀ state input, Decidable (P state input)] :
    ∀ state inputs, Decidable (Throughout step P state inputs)
  | _, [] => inferInstanceAs (Decidable True)
  | state, input :: inputs =>
    have := Throughout.decidable step P (step state input) inputs
    inferInstanceAs (Decidable (_ ∧ _))

theorem throughout_append {P : σ → ι → Prop} {state : σ} {inputs more : List ι} :
    Throughout step P state (inputs ++ more) ↔
      Throughout step P state inputs ∧ Throughout step P (run step state inputs) more := by
  induction inputs generalizing state with
  | nil => simp [Throughout]
  | cons input inputs inductionHypothesis =>
    rw [List.cons_append, Throughout, Throughout, inductionHypothesis, and_assoc]
    exact Iff.rfl

namespace Throughout

variable {P Q : σ → ι → Prop} {state : σ} {inputs : List ι}

theorem mono (throughout : Throughout step P state inputs)
    (weaker : ∀ state input, P state input → Q state input) : Throughout step Q state inputs := by
  induction inputs generalizing state with
  | nil => trivial
  | cons input inputs inductionHypothesis =>
    exact ⟨weaker _ _ throughout.1, inductionHypothesis throughout.2⟩

/-- A property that every conforming step keeps is met by every input. -/
theorem strengthen {I : σ → Prop} (initial : I state)
    (keeps : ∀ state input, I state → P state input → I (step state input))
    (throughout : Throughout step P state inputs) :
    Throughout step (fun state input => I state ∧ P state input) state inputs := by
  induction inputs generalizing state with
  | nil => trivial
  | cons input inputs inductionHypothesis =>
    exact ⟨⟨initial, throughout.1⟩,
      inductionHypothesis (keeps _ _ initial throughout.1) throughout.2⟩

/-- A property that every conforming step keeps holds after the run. -/
theorem invariant {I : σ → Prop} (throughout : Throughout step P state inputs) (initial : I state)
    (keeps : ∀ state input, I state → P state input → I (step state input)) :
    I (run step state inputs) := by
  induction inputs generalizing state with
  | nil => exact initial
  | cons input inputs inductionHypothesis =>
    exact inductionHypothesis throughout.2 (keeps _ _ initial throughout.1)

/-- A reflexive and transitive relation that every conforming step satisfies
relates the ends of the run. -/
theorem relates {R : σ → σ → Prop} (throughout : Throughout step P state inputs)
    (reflexive : ∀ state, R state state) (transitive : ∀ a b c, R a b → R b c → R a c)
    (steps : ∀ state input, P state input → R state (step state input)) :
    R state (run step state inputs) := by
  induction inputs generalizing state with
  | nil => exact reflexive state
  | cons input inputs inductionHypothesis =>
    exact transitive _ _ _ (steps _ _ throughout.1) (inductionHypothesis throughout.2)

/-- A conforming run can be cut at any of its inputs. -/
theorem split {before after : List ι} {input : ι}
    (throughout : Throughout step P state (before ++ input :: after)) :
    Throughout step P state before ∧ P (run step state before) input ∧
      Throughout step P (step (run step state before) input) after := by
  obtain ⟨first, second⟩ := throughout_append.mp throughout
  exact ⟨first, second.1, second.2⟩

end Throughout

end Machine
