import Mathlib.Logic.Relation

/-!
# Transactions over a state

A transaction reads and writes a private copy of the state and may fail. It is
a state transformer over `Except`, so a failure carries no state at all: rolling
back is the absence of a new state, not an undo.

The laws come in two kinds. The inversion laws take a committed execution apart
into committed executions of its parts, which is how a single statement sequence
is read. The `Keeps` rules carry a reflexive and transitive relation between the
state before and the state after through sequencing, branching and loops, which
is how an invariant of many statement sequences is proved once for each
statement. The `Throws` rules carry a property of errors the same way, and are all
that is said of executions that fail.
-/

namespace Relational

universe u

/-! ## Outcomes -/

section Outcomes

variable {ε α β δ : Type u}

/-- A sequence of fallible steps succeeds exactly when its first step does and its rest
does from there. -/
@[simp] theorem outcome_bind_ok (first : Except ε α) (rest : α → Except ε β) (result : β) :
    (first >>= rest) = .ok result ↔ ∃ value, first = .ok value ∧ rest value = .ok result := by
  cases first with
  | error failure => simp [bind, Except.bind]
  | ok value => simp [bind, Except.bind]

@[simp] theorem outcome_pure_ok (value result : α) : (pure value : Except ε α) = .ok result ↔ value = result := by
  simp [pure, Except.pure]

@[simp] theorem outcome_throw_ok (failure : ε) (result : α) : (throw failure : Except ε α) = .ok result ↔ False := by
  simp [throw, throwThe, MonadExceptOf.throw]

@[simp] theorem outcome_mapError_ok (given : Except ε α) (f : ε → δ) (result : α) :
    given.mapError f = .ok result ↔ given = .ok result := by
  cases given with
  | error failure => exact ⟨fun same => (nomatch same), fun same => (nomatch same)⟩
  | ok value => exact ⟨fun same => congrArg _ (Except.ok.inj same), fun same => congrArg _ (Except.ok.inj same)⟩

end Outcomes

/-- A computation on a state that either commits a new state or fails. -/
abbrev Transaction (σ ε : Type u) := StateT σ (Except ε)

namespace Transaction

variable {σ ε α β : Type u}

/-- A sequence commits exactly when its first part commits and its rest commits
from there. -/
@[simp] theorem bind_ok (first : Transaction σ ε α) (rest : α → Transaction σ ε β) (before : σ)
    (result : β × σ) :
    (first >>= rest).run before = .ok result ↔
      ∃ value between, first.run before = .ok (value, between) ∧
        (rest value).run between = .ok result := by
  rw [StateT.run_bind]
  cases outcome : first.run before with
  | error failure => simp [bind, Except.bind]
  | ok committed =>
    obtain ⟨value, between⟩ := committed
    simp only [bind, Except.bind, Except.ok.injEq, Prod.mk.injEq]
    constructor
    · intro finished
      exact ⟨value, between, ⟨rfl, rfl⟩, finished⟩
    · rintro ⟨_, _, ⟨rfl, rfl⟩, finished⟩
      exact finished

/-- Reading the state first hands it to the rest, which runs from it. -/
@[simp] theorem get_bind_ok (rest : σ → Transaction σ ε β) (before : σ) (result : β × σ) :
    (get >>= rest).run before = .ok result ↔ (rest before).run before = .ok result := by
  simp [get, getThe, MonadStateOf.get, StateT.get, pure, Except.pure, bind, Except.bind, StateT.run,
    StateT.bind]

@[simp] theorem pure_ok (value : α) (before : σ) (result : α × σ) :
    (pure value : Transaction σ ε α).run before = .ok result ↔ (value, before) = result := by
  change (Except.ok (value, before) : Except ε (α × σ)) = .ok result ↔ _
  rw [Except.ok.injEq]

@[simp] theorem throw_ok (failure : ε) (before : σ) (result : α × σ) :
    (throw failure : Transaction σ ε α).run before = .ok result ↔ False := by
  simp [throw, throwThe, MonadExceptOf.throw, StateT.run, StateT.lift, bind, Except.bind]

@[simp] theorem get_ok (before : σ) (result : σ × σ) :
    (get : Transaction σ ε σ).run before = .ok result ↔ (before, before) = result := by
  simp [get, getThe, MonadStateOf.get, StateT.run, StateT.get, pure, Except.pure]

@[simp] theorem set_ok (after before : σ) (result : PUnit × σ) :
    (set after : Transaction σ ε PUnit).run before = .ok result ↔ (PUnit.unit, after) = result := by
  change (Except.ok (PUnit.unit, after) : Except ε (PUnit × σ)) = .ok result ↔ _
  rw [Except.ok.injEq]

@[simp] theorem modify_ok (f : σ → σ) (before : σ) (result : PUnit × σ) :
    (modify f : Transaction σ ε PUnit).run before = .ok result ↔
      (PUnit.unit, f before) = result := by
  change (Except.ok (PUnit.unit, f before) : Except ε (PUnit × σ)) = .ok result ↔ _
  rw [Except.ok.injEq]

/-- Every committed execution relates the state it started from to the state it
reached. -/
def Keeps (R : σ → σ → Prop) (action : Transaction σ ε α) : Prop :=
  ∀ before value after, action.run before = .ok (value, after) → R before after

namespace Keeps

variable {R : σ → σ → Prop}

protected theorem mono {R' : σ → σ → Prop} {action : Transaction σ ε α} (keeps : Keeps R action)
    (weaker : ∀ before after, R before after → R' before after) : Keeps R' action :=
  fun before value after committed => weaker _ _ (keeps before value after committed)

protected theorem pure (reflexive : ∀ state, R state state) (value : α) :
    Keeps R (pure value : Transaction σ ε α) := by
  intro before result after committed
  simp only [pure_ok, Prod.mk.injEq] at committed
  exact committed.2 ▸ reflexive before

protected theorem throw (failure : ε) : Keeps R (throw failure : Transaction σ ε α) := by
  intro before result after committed
  simp only [throw_ok] at committed

protected theorem get (reflexive : ∀ state, R state state) :
    Keeps R (get : Transaction σ ε σ) := by
  intro before result after committed
  simp only [get_ok, Prod.mk.injEq] at committed
  exact committed.2 ▸ reflexive before

/-- A body that reads the state first may use that it starts from what it read. -/
protected theorem get_bind {rest : σ → Transaction σ ε β}
    (tail : ∀ before value after, (rest before).run before = .ok (value, after) → R before after) :
    Keeps R (get >>= rest) := by
  intro before value after committed
  exact tail before value after ((get_bind_ok _ _ _).mp committed)

protected theorem modify (f : σ → σ) (step : ∀ state, R state (f state)) :
    Keeps R (modify f : Transaction σ ε PUnit) := by
  intro before result after committed
  simp only [modify_ok, Prod.mk.injEq] at committed
  exact committed.2 ▸ step before

/-- A sequence relates what the relations of its parts compose to. -/
protected theorem seq {S T : σ → σ → Prop} (compose : ∀ a b c, R a b → S b c → T a c)
    {first : Transaction σ ε α} {rest : α → Transaction σ ε β}
    (head : Keeps R first) (tail : ∀ value, Keeps S (rest value)) : Keeps T (first >>= rest) := by
  intro before result after committed
  obtain ⟨value, between, started, finished⟩ := (bind_ok _ _ _ _).mp committed
  exact compose _ _ _ (head _ _ _ started) (tail value _ _ _ finished)

protected theorem bind (transitive : ∀ a b c, R a b → R b c → R a c)
    {first : Transaction σ ε α} {rest : α → Transaction σ ε β}
    (head : Keeps R first) (tail : ∀ value, Keeps R (rest value)) : Keeps R (first >>= rest) :=
  .seq transitive head tail

/-- A loop over a list keeps what each iteration keeps. -/
protected theorem forM {ι : Type u} (reflexive : ∀ state, R state state)
    (transitive : ∀ a b c, R a b → R b c → R a c)
    (items : List ι) {body : ι → Transaction σ ε PUnit} (each : ∀ item ∈ items, Keeps R (body item)) :
    Keeps R (items.forM body) := by
  induction items with
  | nil => exact Keeps.pure reflexive _
  | cons item rest inductionHypothesis =>
    change Keeps R (body item >>= fun _ => rest.forM body)
    exact Keeps.bind transitive (each item (by simp))
      (fun _ => inductionHypothesis (fun later member => each later (by simp [member])))

end Keeps

/-! ## Commits -/

/-- From every state that fits, the execution commits, and the state it reaches fits. -/
def Commits (fits : σ → Prop) (action : Transaction σ ε α) : Prop :=
  ∀ before, fits before → ∃ value after, action.run before = .ok (value, after) ∧ fits after

namespace Commits

variable {fits : σ → Prop}

protected theorem pure (value : α) : Commits fits (pure value : Transaction σ ε α) :=
  fun before met => ⟨value, before, rfl, met⟩

protected theorem modify (f : σ → σ) (step : ∀ state, fits state → fits (f state)) :
    Commits fits (modify f : Transaction σ ε PUnit) :=
  fun before met => ⟨PUnit.unit, f before, rfl, step before met⟩

protected theorem bind {first : Transaction σ ε α} {rest : α → Transaction σ ε β} (head : Commits fits first)
    (tail : ∀ value, Commits fits (rest value)) : Commits fits (first >>= rest) := by
  intro before met
  obtain ⟨value, between, started, reached⟩ := head before met
  obtain ⟨result, after, finished, left⟩ := tail value between reached
  exact ⟨result, after, (bind_ok _ _ _ _).mpr ⟨value, between, started, finished⟩, left⟩

/-- A loop over a list commits when each of its iterations does. -/
protected theorem forM {ι : Type u} (items : List ι) {body : ι → Transaction σ ε PUnit}
    (each : ∀ item, Commits fits (body item)) : Commits fits (items.forM body) := by
  induction items with
  | nil => exact Commits.pure _
  | cons item rest inductionHypothesis =>
    change Commits fits (body item >>= fun _ => rest.forM body)
    exact Commits.bind (each item) fun _ => inductionHypothesis

end Commits

/-! ## Failures -/

/-- Every execution that fails does so with an error of this kind. -/
def Throws (kind : ε → Prop) (action : Transaction σ ε α) : Prop :=
  ∀ before failure, action.run before = .error failure → kind failure

namespace Throws

variable {kind : ε → Prop}

protected theorem pure (value : α) : Throws kind (pure value : Transaction σ ε α) := by
  intro before failure failed
  cases failed

protected theorem throw {failure : ε} (expected : kind failure) : Throws kind (throw failure : Transaction σ ε α) := by
  intro before thrown failed
  obtain rfl : failure = thrown := Except.error.inj failed
  exact expected

protected theorem get : Throws kind (get : Transaction σ ε σ) := by
  intro before failure failed
  cases failed

protected theorem set (after : σ) : Throws kind (set after : Transaction σ ε PUnit) := by
  intro before failure failed
  cases failed

protected theorem modify (f : σ → σ) : Throws kind (modify f : Transaction σ ε PUnit) := by
  intro before failure failed
  cases failed

protected theorem bind {first : Transaction σ ε α} {rest : α → Transaction σ ε β} (head : Throws kind first)
    (tail : ∀ value, Throws kind (rest value)) : Throws kind (first >>= rest) := by
  intro before failure failed
  rw [StateT.run_bind] at failed
  cases outcome : first.run before with
  | error thrown =>
    rw [outcome] at failed
    obtain rfl : thrown = failure := Except.error.inj failed
    exact head before thrown outcome
  | ok committed =>
    rw [outcome] at failed
    exact tail committed.1 committed.2 failure failed

/-- A loop over a list throws what its iterations throw. -/
protected theorem forM {ι : Type u} (items : List ι) {body : ι → Transaction σ ε PUnit}
    (each : ∀ item, Throws kind (body item)) : Throws kind (items.forM body) := by
  induction items with
  | nil => exact Throws.pure _
  | cons item rest inductionHypothesis => exact Throws.bind (each item) fun _ => inductionHypothesis

end Throws

/-! ## Two executions

What an execution depends on is said by running it twice: from states that agree
on that part, it fails alike or commits the same value, and the states it leaves
agree again. -/

/-- Two executions with one outcome. -/
inductive Alike (R : σ → σ → Prop) : Except ε (α × σ) → Except ε (α × σ) → Prop
  | failed (failure : ε) : Alike R (.error failure) (.error failure)
  | committed (value : α) {left right : σ} (related : R left right) :
      Alike R (.ok (value, left)) (.ok (value, right))

namespace Alike

variable {R : σ → σ → Prop} {left right : σ}

protected theorem pure (value : α) (related : R left right) :
    Alike R ((pure value : Transaction σ ε α).run left) ((pure value : Transaction σ ε α).run right) :=
  .committed value related

protected theorem throw (failure : ε) :
    Alike R ((throw failure : Transaction σ ε α).run left) ((throw failure : Transaction σ ε α).run right) :=
  .failed failure

protected theorem set {newLeft newRight : σ} (related : R newLeft newRight) :
    Alike R ((set newLeft : Transaction σ ε PUnit).run left) ((set newRight : Transaction σ ε PUnit).run right) :=
  .committed PUnit.unit related

protected theorem modify {f g : σ → σ} (related : R (f left) (g right)) :
    Alike R ((modify f : Transaction σ ε PUnit).run left) ((modify g : Transaction σ ε PUnit).run right) :=
  .committed PUnit.unit related

protected theorem get_bind {rest : σ → Transaction σ ε β}
    (tail : Alike R ((rest left).run left) ((rest right).run right)) :
    Alike R ((get >>= rest).run left) ((get >>= rest).run right) :=
  tail

protected theorem bind {S : σ → σ → Prop} {first second : Transaction σ ε α} {rest more : α → Transaction σ ε β}
    (head : Alike R (first.run left) (second.run right))
    (tail : ∀ value left right, R left right → Alike S ((rest value).run left) ((more value).run right)) :
    Alike S ((first >>= rest).run left) ((second >>= more).run right) := by
  rw [StateT.run_bind, StateT.run_bind]
  revert head
  generalize first.run left = one
  generalize second.run right = two
  intro head
  cases head with
  | failed failure => exact .failed failure
  | committed value related => exact tail value _ _ related

/-- Two executions with one outcome leave states related as everything known of the
states they commit says. -/
protected theorem strengthen {S : σ → σ → Prop} {one two : Except ε (α × σ)} (alike : Alike R one two)
    (each : ∀ value left right, one = .ok (value, left) → two = .ok (value, right) → R left right → S left right) :
    Alike S one two := by
  cases alike with
  | failed failure => exact .failed failure
  | committed value related => exact .committed value (each value _ _ rfl rfl related)

/-- A loop over a list is alike when each of its iterations is. -/
protected theorem forM {ι : Type u} (items : List ι) {body : ι → Transaction σ ε PUnit}
    (each : ∀ item left right, R left right → Alike R ((body item).run left) ((body item).run right))
    (related : R left right) : Alike R ((items.forM body).run left) ((items.forM body).run right) := by
  induction items generalizing left right with
  | nil => exact .pure _ related
  | cons item rest inductionHypothesis =>
    exact .bind (each item left right related) fun _ _ _ related => inductionHypothesis related

end Alike

end Transaction

end Relational
