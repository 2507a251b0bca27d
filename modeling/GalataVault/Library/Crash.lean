import GalataVault.Library.Interaction

/-!
# Programs that may be interrupted

A program that meets no other may be interrupted before any of its operations. What its
operations have done stays done: the world is as the last of them left it, and there is no
result. A condition that holds of the world at every moment holds wherever the program is
interrupted; what the program comes to is another one, which holds where it ends.

The two are proved together, along the program.
-/

namespace Interaction

namespace Program

variable {Op : Type → Type 1} {ε α β σ : Type} (serve : {β : Type} → Op β → σ → β × σ)

/-- A program that is interrupted after so many operations, unless it ends before. -/
def cut : Nat → Program Op ε α → σ → Option (Except ε α) × σ
  | _, .done result, state => (some result, state)
  | 0, .perform _ _, state => (none, state)
  | n + 1, .perform op rest, state => cut n (rest (serve op state).1) (serve op state).2

/-- Some number of operations is enough. -/
theorem cut_ends (program : Program Op ε α) (state : σ) : ∃ n, (program.cut serve n state).1.isSome = true := by
  induction program generalizing state with
  | done result => exact ⟨0, rfl⟩
  | perform op rest inductionHypothesis =>
    obtain ⟨n, ended⟩ := inductionHypothesis (serve op state).1 (serve op state).2
    exact ⟨n + 1, ended⟩

/-- More operations than are enough change nothing. -/
theorem cut_after {program : Program Op ε α} {state : σ} {n m : Nat}
    (ended : (program.cut serve n state).1.isSome = true) (more : n ≤ m) :
    program.cut serve m state = program.cut serve n state := by
  induction program generalizing state n m with
  | done result => cases n <;> cases m <;> rfl
  | perform op rest inductionHypothesis =>
    cases n with
    | zero => cases ended
    | succ n =>
      cases m with
      | zero => omega
      | succ m => exact inductionHypothesis _ ended (Nat.le_of_succ_le_succ more)

/-- The world keeps an invariant at every moment of the program, and is as `post` says
where it ends. -/
def Ensures (always : σ → Prop) : Program Op ε α → σ → (Except ε α → σ → Prop) → Prop
  | .done result, state, post => always state ∧ post result state
  | .perform op rest, state, post =>
    always state ∧ (rest (serve op state).1).Ensures always (serve op state).2 post

/-- What the rest of a sequence must ensure after its first part. -/
def Then (always : σ → Prop) (next : α → Program Op ε β) (post : Except ε β → σ → Prop) : Except ε α → σ → Prop
  | .ok value, state => (next value).Ensures serve always state post
  | .error failure, state => post (.error failure) state

variable {serve} {always : σ → Prop}

theorem Ensures.here {program : Program Op ε α} {state : σ} {post : Except ε α → σ → Prop}
    (ensures : program.Ensures serve always state post) : always state := by
  cases program with
  | done result => exact ensures.1
  | perform op rest => exact ensures.1

/-- Where a program is interrupted, and where it ends. -/
theorem Ensures.cut {program : Program Op ε α} {state : σ} {post : Except ε α → σ → Prop}
    (ensures : program.Ensures serve always state post) (n : Nat) :
    always (program.cut serve n state).2 ∧
      ∀ result, (program.cut serve n state).1 = some result → post result (program.cut serve n state).2 := by
  induction program generalizing state n with
  | done result =>
    cases n <;> exact ⟨ensures.1, fun other same => Option.some.inj same ▸ ensures.2⟩
  | perform op rest inductionHypothesis =>
    cases n with
    | zero => exact ⟨ensures.1, fun result impossible => by cases impossible⟩
    | succ n => exact inductionHypothesis _ ensures.2 n

/-- Where a program that is not interrupted ends. -/
theorem Ensures.alone {program : Program Op ε α} {state : σ} {post : Except ε α → σ → Prop}
    (ensures : program.Ensures serve always state post) :
    post (program.alone serve state).1 (program.alone serve state).2 := by
  induction program generalizing state with
  | done result => exact ensures.2
  | perform op rest inductionHypothesis => exact inductionHypothesis _ ensures.2

theorem Ensures.mono {program : Program Op ε α} {state : σ} {post weaker : Except ε α → σ → Prop}
    (ensures : program.Ensures serve always state post)
    (implies : ∀ result state, post result state → weaker result state) :
    program.Ensures serve always state weaker := by
  induction program generalizing state with
  | done result => exact ⟨ensures.1, implies _ _ ensures.2⟩
  | perform op rest inductionHypothesis => exact ⟨ensures.1, inductionHypothesis _ ensures.2⟩

theorem Ensures.weaken {always' : σ → Prop} {program : Program Op ε α} {state : σ} {post : Except ε α → σ → Prop}
    (ensures : program.Ensures serve always state post) (implies : ∀ state, always state → always' state) :
    program.Ensures serve always' state post := by
  induction program generalizing state with
  | done result => exact ⟨implies _ ensures.1, ensures.2⟩
  | perform op rest inductionHypothesis => exact ⟨implies _ ensures.1, inductionHypothesis _ ensures.2⟩

theorem Ensures.bind {first : Program Op ε α} {next : α → Program Op ε β} {state : σ}
    {post : Except ε β → σ → Prop} (ensures : first.Ensures serve always state (Then serve always next post)) :
    (first >>= next).Ensures serve always state post := by
  induction first generalizing state with
  | done result =>
    cases result with
    | ok value => exact ensures.2
    | error failure => exact ensures
  | perform op rest inductionHypothesis => exact ⟨ensures.1, inductionHypothesis _ ensures.2⟩

end Program

end Interaction
