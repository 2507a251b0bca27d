import GalataVault.Library.Interaction

/-!
# Programs that rely on their answers

A watch says what a program may do whatever it is answered. What a program guarantees
often holds only of some answers: those the world gives as long as it is as expected.
A trust says what is noted of each answer and of the surroundings it was given in, which
operations a program may perform, and which answers it may rely on.

In an interleaving each operation is performed by one program and answered by the world.
A program keeps its trust as long as its own answers are among those it relies on; what
the others are answered does not matter to it. This is carried through a run for all
programs at once, where the notes are those the run keeps, and for one program alone,
with notes of its own.
-/

namespace Interaction

/-- What is noted of a program's answers, what it may do, and which answers it may rely
on. -/
structure Trust (Op : Type → Type 1) (ν κ : Type) where
  note : {β : Type} → ν → κ → Op β → β → ν
  allowed : {β : Type} → ν → Op β → Prop
  expected : {β : Type} → ν → κ → Op β → β → Prop

namespace Program

variable {Op : Type → Type 1} {ε α β ν κ : Type} (trust : Trust Op ν κ)

/-- As long as every answer is one it may rely on, the program performs allowed
operations, and it ends with a result and a note as `post` says. -/
def Trusts : Program Op ε α → ν → (Except ε α → ν → Prop) → Prop
  | .done result, noted, post => post result noted
  | .perform op rest, noted, post =>
    trust.allowed noted op ∧
      ∀ env answer, trust.expected noted env op answer → (rest answer).Trusts (trust.note noted env op answer) post

/-- What the rest of a sequence must do after its first part. -/
def Thereafter (next : α → Program Op ε β) (post : Except ε β → ν → Prop) : Except ε α → ν → Prop
  | .ok value, noted => (next value).Trusts trust noted post
  | .error failure, noted => post (.error failure) noted

variable {trust}

theorem Trusts.bind {first : Program Op ε α} {next : α → Program Op ε β} {noted : ν} {post : Except ε β → ν → Prop}
    (trusts : first.Trusts trust noted (Thereafter trust next post)) : (first >>= next).Trusts trust noted post := by
  induction first generalizing noted with
  | done result =>
    cases result with
    | ok value => exact trusts
    | error failure => exact trusts
  | perform op rest inductionHypothesis =>
    exact ⟨trusts.1, fun env answer expected => inductionHypothesis answer (trusts.2 env answer expected)⟩

theorem Trusts.mono {program : Program Op ε α} {noted : ν} {post weaker : Except ε α → ν → Prop}
    (trusts : program.Trusts trust noted post) (implies : ∀ result noted, post result noted → weaker result noted) :
    program.Trusts trust noted weaker := by
  induction program generalizing noted with
  | done result => exact implies result noted trusts
  | perform op rest inductionHypothesis =>
    exact ⟨trusts.1, fun env answer expected => inductionHypothesis answer (trusts.2 env answer expected)⟩

theorem Trusts.attempt {program : Program Op ε α} {noted : ν} {post : Except ε (Except ε α) → ν → Prop}
    (trusts : program.Trusts trust noted fun result noted => post (.ok result) noted) :
    program.attempt.Trusts trust noted post := by
  induction program generalizing noted with
  | done result => exact trusts
  | perform op rest inductionHypothesis =>
    exact ⟨trusts.1, fun env answer expected => inductionHypothesis answer (trusts.2 env answer expected)⟩

/-- A program ends with a value as `holds` says, or with an error that is excused. -/
def Outcome (holds : α → ν → Prop) (excused : ε → Prop) : Except ε α → ν → Prop
  | .ok value, noted => holds value noted
  | .error failure, _ => excused failure

theorem Trusts.andThen {first : Program Op ε α} {next : α → Program Op ε β} {noted : ν} {excused : ε → Prop}
    {middle : α → ν → Prop} {holds : β → ν → Prop} (head : first.Trusts trust noted (Outcome middle excused))
    (tail : ∀ value later, middle value later → (next value).Trusts trust later (Outcome holds excused)) :
    (first >>= next).Trusts trust noted (Outcome holds excused) := by
  apply Trusts.bind
  apply head.mono
  intro result later ended
  cases result with
  | ok value => exact tail value later ended
  | error failure => exact ended

/-- A first part that is done: go on with its value, or end with its error. -/
theorem Trusts.done_bind {result : Except ε α} {next : α → Program Op ε β} {noted : ν} {post : Except ε β → ν → Prop}
    (fails : ∀ failure, result = .error failure → post (.error failure) noted)
    (goes : ∀ value, result = .ok value → (next value).Trusts trust noted post) :
    (Program.done result >>= next).Trusts trust noted post := by
  cases result with
  | ok value => exact goes value rfl
  | error failure => exact fails failure rfl

end Program

/-! ## Interleavings -/

section Interleaving

variable {σ ρ κ : Type} {Op : Type → Type 1} {ε α ν μ : Type} {rules : Rules σ ρ κ Op ε α ν}
  {post : Except ε α → ν → Prop} {state : System σ Op ε α ν}

/-- Every program keeps its trust from here on. -/
def Trusting (trust : Trust Op ν κ) (post : Except ε α → ν → Prop) (state : System σ Op ε α ν) : Prop :=
  ∀ flight ∈ state.flights, flight.rest.Trusts trust flight.noted post

/-- The next operation of every program is allowed. -/
theorem Trusting.allowed {trust : Trust Op ν κ} {index : Nat} {noted : ν} {β : Type} {op : Op β}
    (trusting : Trusting trust post state) (performs : Performs state index noted op) : trust.allowed noted op := by
  obtain ⟨rest, found⟩ := performs
  exact (trusting _ (List.mem_of_getElem? found)).1

/-- An event keeps the trust of all when a program that arrives has it, and the
operation of a program is answered as it may rely on. -/
theorem Trusting.step {trust : Trust Op ν κ} (trusting : Trusting trust post state)
    (same : ∀ {β : Type} (noted : ν) (env : κ) (op : Op β) (answer : β),
      rules.watch.note noted op answer = trust.note noted env op answer) (event : Event ρ κ)
    (starts : ∀ request, event = .arrive request → (rules.start request).Trusts trust rules.first post)
    (answers : ∀ index env (β : Type) noted (op : Op β), event = .advance index env → Performs state index noted op →
      trust.expected noted env op (rules.serve env op state.world).1) :
    Trusting trust post (Interaction.step rules state event) := by
  intro flight member
  cases event with
  | arrive request =>
    rcases List.mem_append.mp member with old | new
    · exact trusting flight old
    · obtain rfl := List.mem_singleton.mp new
      exact starts request rfl
  | advance index env =>
    revert member
    simp only [Interaction.step, Interaction.advance]
    split
    · next noted β op rest here =>
      intro member
      rcases List.mem_or_eq_of_mem_set member with old | rfl
      · exact trusting flight old
      · rw [same noted env]
        exact (trusting _ (List.mem_of_getElem? here)).2 env _ (answers index env β noted op rfl ⟨rest, here⟩)
    · intro member
      exact trusting flight member

/-- One program keeps a trust from here on, with notes of its own that fit the world. -/
def Tracks (trust : Trust Op μ κ) (post : Except ε α → μ → Prop) (fits : μ → σ → Prop) (state : System σ Op ε α ν)
    (index : Nat) : Prop :=
  ∃ flight noted, state.flights[index]? = some flight ∧ fits noted state.world ∧ flight.rest.Trusts trust noted post

/-- An event keeps the trust of one program when its own operation is answered as it may
rely on, and its notes still fit. -/
theorem Tracks.step {trust : Trust Op μ κ} {post : Except ε α → μ → Prop} {fits : μ → σ → Prop} {index : Nat}
    (tracks : Tracks trust post fits state index) (event : Event ρ κ)
    (answers : ∀ env (β : Type) stored (op : Op β) noted, event = .advance index env → Performs state index stored op →
      fits noted state.world → trust.expected noted env op (rules.serve env op state.world).1 ∧
        fits (trust.note noted env op (rules.serve env op state.world).1) (rules.serve env op state.world).2)
    (others : ∀ noted, fits noted state.world → fits noted (Interaction.step rules state event).world) :
    Tracks trust post fits (Interaction.step rules state event) index := by
  obtain ⟨flight, noted, found, fitting, trusts⟩ := tracks
  have still := others noted fitting
  cases event with
  | arrive request =>
    refine ⟨flight, noted, ?_, still, trusts⟩
    rw [← found]
    exact List.getElem?_append_left (List.getElem?_eq_some_iff.mp found).1
  | advance other env =>
    revert still
    simp only [Interaction.step, Interaction.advance]
    split
    · next stored β op rest here =>
      intro still
      by_cases mine : other = index
      · subst mine
        obtain rfl := Option.some.inj (found.symm.trans here)
        obtain ⟨expected, fitsAfter⟩ := answers env β stored op noted rfl ⟨rest, here⟩ fitting
        exact ⟨_, _, List.getElem?_set_self (List.getElem?_eq_some_iff.mp here).1, fitsAfter, trusts.2 env _ expected⟩
      · refine ⟨flight, noted, ?_, still, trusts⟩
        rw [List.getElem?_set_ne mine]
        exact found
    · intro still
      exact ⟨flight, noted, found, still, trusts⟩

end Interleaving

end Interaction
