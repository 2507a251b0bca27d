import GalataVault.Library.Machine

/-!
# Programs that interact with a shared world

A program performs operations one at a time and goes on with the answer to each,
until it is done with a result or an error. It holds no state of its own: what it
knows of the world is what it was answered, and between two operations the world
may have moved.

Any number of programs interleave over one world. Each is watched: an observer
notes what a program was answered and says which operations it may perform after
what was noted. The one induction here carries such a watch through every
interleaving: a program that obeys it whatever it is answered is found obeying it
at every moment of a run, as long as each step leaves the notes of the other
programs fitting the world.

An execution is one program's share of such a run: the moments at which it performed
its operations.
-/

namespace Interaction

/-- A program over operations `Op`, each with the type of its answer. -/
inductive Program (Op : Type → Type 1) (ε α : Type) : Type 1 where
  | done (result : Except ε α)
  | perform {β : Type} (op : Op β) (rest : β → Program Op ε α)

namespace Program

variable {Op : Type → Type 1} {ε α β : Type}

/-- Go on with the result of a program; an error ends the whole. -/
def bind : Program Op ε α → (α → Program Op ε β) → Program Op ε β
  | .done (.ok value), next => next value
  | .done (.error failure), _ => .done (.error failure)
  | .perform op rest, next => .perform op fun answer => (rest answer).bind next

instance : Monad (Program Op ε) where
  pure value := .done (.ok value)
  bind := bind

/-- End with an error. -/
def fail (failure : ε) : Program Op ε α := .done (.error failure)

/-- Perform one operation and end with its answer. -/
def ask (op : Op α) : Program Op ε α := .perform op fun answer => .done (.ok answer)

/-- Run a program and go on with its outcome, whichever it is. -/
def attempt : Program Op ε α → Program Op ε (Except ε α)
  | .done result => .done (.ok result)
  | .perform op rest => .perform op fun answer => (rest answer).attempt

/-- Whatever it is answered, the program performs allowed operations only. -/
def Only (allowed : {β : Type} → Op β → Prop) : Program Op ε α → Prop
  | .done _ => True
  | .perform op rest => allowed op ∧ ∀ answer, (rest answer).Only allowed

namespace Only

variable {allowed : {β : Type} → Op β → Prop}

protected theorem pure (value : α) : Only allowed (pure value : Program Op ε α) := trivial

protected theorem fail (failure : ε) : Only allowed (fail failure : Program Op ε α) := trivial

protected theorem ask {op : Op α} (permitted : allowed op) : Only allowed (ask op : Program Op ε α) :=
  ⟨permitted, fun _ => trivial⟩

protected theorem bind {first : Program Op ε α} {next : α → Program Op ε β} (head : Only allowed first)
    (tail : ∀ value, Only allowed (next value)) : Only allowed (first >>= next) := by
  induction first with
  | done result =>
    cases result with
    | ok value => exact tail value
    | error failure => trivial
  | perform op rest inductionHypothesis =>
    exact ⟨head.1, fun answer => inductionHypothesis answer (head.2 answer)⟩

protected theorem attempt {program : Program Op ε α} (only : Only allowed program) : Only allowed program.attempt := by
  induction program with
  | done result => trivial
  | perform op rest inductionHypothesis =>
    exact ⟨only.1, fun answer => inductionHypothesis answer (only.2 answer)⟩

protected theorem mono {wider : {β : Type} → Op β → Prop} {program : Program Op ε α} (only : Only allowed program)
    (implies : ∀ {β : Type} (op : Op β), allowed op → wider op) : Only wider program := by
  induction program with
  | done result => trivial
  | perform op rest inductionHypothesis =>
    exact ⟨implies op only.1, fun answer => inductionHypothesis answer (only.2 answer)⟩

end Only

end Program

/-! ## A program by itself -/

namespace Program

variable {Op : Type → Type 1} {ε α β σ : Type}

/-- What a program that meets no other ends with, and the world then. -/
def alone (serve : {β : Type} → Op β → σ → β × σ) : Program Op ε α → σ → Except ε α × σ
  | .done result, state => (result, state)
  | .perform op rest, state => (rest (serve op state).1).alone serve (serve op state).2

/-- An operation is performed, and what follows goes on with its answer. -/
theorem alone_ask_bind (serve : {β : Type} → Op β → σ → β × σ) (op : Op α) (next : α → Program Op ε β) (state : σ) :
    (Program.ask op >>= next).alone serve state = (next (serve op state).1).alone serve (serve op state).2 :=
  rfl

/-- An attempted program runs as the program does, and ends with its outcome. -/
theorem alone_attempt (serve : {β : Type} → Op β → σ → β × σ) (program : Program Op ε α) (state : σ) :
    program.attempt.alone serve state = (.ok (program.alone serve state).1, (program.alone serve state).2) := by
  induction program generalizing state with
  | done result => rfl
  | perform op rest inductionHypothesis => exact inductionHypothesis _ _

/-- A sequence ends with the error of its first part, or as the rest does from there. -/
theorem alone_bind (serve : {β : Type} → Op β → σ → β × σ) (first : Program Op ε α) (next : α → Program Op ε β) (state : σ) :
    (∃ failure after, first.alone serve state = (.error failure, after) ∧
      (first >>= next).alone serve state = (.error failure, after)) ∨
    ∃ value after, first.alone serve state = (.ok value, after) ∧
      (first >>= next).alone serve state = (next value).alone serve after := by
  induction first generalizing state with
  | done result =>
    cases result with
    | error failure => exact .inl ⟨failure, state, rfl, rfl⟩
    | ok value => exact .inr ⟨value, state, rfl, rfl⟩
  | perform op rest inductionHypothesis => exact inductionHypothesis _ _

/-- A sequence goes on as its rest does from where its first part ended with a value. -/
theorem alone_bind_ok (serve : {β : Type} → Op β → σ → β × σ) {first : Program Op ε α} (next : α → Program Op ε β)
    {state after : σ} {value : α} (ran : first.alone serve state = (.ok value, after)) :
    (first >>= next).alone serve state = (next value).alone serve after := by
  obtain ⟨failure, other, failed, _⟩ | ⟨other, later, same, goesOn⟩ := alone_bind serve first next state
  · rw [ran] at failed
    cases failed
  · rw [ran] at same
    cases same
    exact goesOn

/-- A sequence whose first part ends with an error ends with it. -/
theorem alone_bind_error (serve : {β : Type} → Op β → σ → β × σ) {first : Program Op ε α} (next : α → Program Op ε β)
    {state after : σ} {failure : ε} (ran : first.alone serve state = (.error failure, after)) :
    (first >>= next).alone serve state = (.error failure, after) := by
  obtain ⟨thrown, other, failed, ends⟩ | ⟨value, later, same, _⟩ := alone_bind serve first next state
  · rw [ran] at failed
    cases failed
    exact ends
  · rw [ran] at same
    cases same

end Program

/-! ## Watched programs -/

/-- What is noted of a program's operations and their answers, and what it may do
after what was noted. -/
structure Watch (Op : Type → Type 1) (ν : Type) where
  note : {β : Type} → ν → Op β → β → ν
  allowed : {β : Type} → ν → Op β → Prop

namespace Program

variable {Op : Type → Type 1} {ε α β ν : Type} (watch : Watch Op ν)

/-- Whatever it is answered from here on, the program performs operations its watch
allows, and it ends with a result and a note as `post` says. -/
def Obeys : Program Op ε α → ν → (Except ε α → ν → Prop) → Prop
  | .done result, noted, post => post result noted
  | .perform op rest, noted, post =>
    watch.allowed noted op ∧ ∀ answer, (rest answer).Obeys (watch.note noted op answer) post

/-- What the rest of a sequence must do after its first part. -/
def Next (next : α → Program Op ε β) (post : Except ε β → ν → Prop) : Except ε α → ν → Prop
  | .ok value, noted => (next value).Obeys watch noted post
  | .error failure, noted => post (.error failure) noted

variable {watch}

theorem Obeys.bind {first : Program Op ε α} {next : α → Program Op ε β} {noted : ν}
    {post : Except ε β → ν → Prop} (obeys : first.Obeys watch noted (Next watch next post)) :
    (first >>= next).Obeys watch noted post := by
  induction first generalizing noted with
  | done result =>
    cases result with
    | ok value => exact obeys
    | error failure => exact obeys
  | perform op rest inductionHypothesis =>
    exact ⟨obeys.1, fun answer => inductionHypothesis answer (obeys.2 answer)⟩

theorem Obeys.mono {program : Program Op ε α} {noted : ν} {post weaker : Except ε α → ν → Prop}
    (obeys : program.Obeys watch noted post) (implies : ∀ result noted, post result noted → weaker result noted) :
    program.Obeys watch noted weaker := by
  induction program generalizing noted with
  | done result => exact implies result noted obeys
  | perform op rest inductionHypothesis =>
    exact ⟨obeys.1, fun answer => inductionHypothesis answer (obeys.2 answer)⟩

theorem Obeys.attempt {program : Program Op ε α} {noted : ν} {post : Except ε (Except ε α) → ν → Prop}
    (obeys : program.Obeys watch noted fun result noted => post (.ok result) noted) :
    program.attempt.Obeys watch noted post := by
  induction program generalizing noted with
  | done result => exact obeys
  | perform op rest inductionHypothesis =>
    exact ⟨obeys.1, fun answer => inductionHypothesis answer (obeys.2 answer)⟩

/-- A program whose every operation is allowed and keeps what holds of its notes obeys
its watch from where it is. -/
theorem Only.obeys_while (holds : ν → Prop) {allowed : {β : Type} → Op β → Prop} {program : Program Op ε α} {noted : ν}
    {post : Except ε α → ν → Prop} (only : program.Only allowed) (start : holds noted)
    (keeps : ∀ {β : Type} (op : Op β) noted, allowed op → holds noted →
      watch.allowed noted op ∧ ∀ answer, holds (watch.note noted op answer))
    (ends : ∀ result noted, holds noted → post result noted) : program.Obeys watch noted post := by
  induction program generalizing noted with
  | done result => exact ends result noted start
  | perform op rest inductionHypothesis =>
    obtain ⟨permitted, kept⟩ := keeps op noted only.1 start
    exact ⟨permitted, fun answer => inductionHypothesis answer (only.2 answer) (kept answer)⟩

/-- A program whose every operation is allowed and noted as nothing new obeys its
watch from where it is. -/
theorem Only.obeys {allowed : {β : Type} → Op β → Prop} {program : Program Op ε α} {noted : ν}
    {post : Except ε α → ν → Prop} (only : program.Only allowed)
    (plain : ∀ {β : Type} (op : Op β), allowed op → watch.allowed noted op ∧ ∀ answer, watch.note noted op answer = noted)
    (ends : ∀ result, post result noted) : program.Obeys watch noted post := by
  refine Only.obeys_while (· = noted) only rfl ?_ ?_
  · rintro β op _ permitted rfl
    exact plain op permitted
  · rintro result _ rfl
    exact ends result

end Program

/-! ## Two watches at once -/

/-- Two watches over one program, each with notes of its own. -/
def Watch.both {Op : Type → Type 1} {μ ν : Type} (one : Watch Op μ) (other : Watch Op ν) : Watch Op (μ × ν) where
  note noted op answer := (one.note noted.1 op answer, other.note noted.2 op answer)
  allowed noted op := one.allowed noted.1 op ∧ other.allowed noted.2 op

/-- A program that obeys each of two watches obeys both at once. -/
theorem Program.Obeys.both {Op : Type → Type 1} {ε α μ ν : Type} {one : Watch Op μ} {other : Watch Op ν}
    {program : Program Op ε α} {noted : μ} {noted' : ν} {post : Except ε α → μ → Prop} {post' : Except ε α → ν → Prop}
    (first : program.Obeys one noted post) (second : program.Obeys other noted' post') :
    program.Obeys (one.both other) (noted, noted') fun result last => post result last.1 ∧ post' result last.2 := by
  induction program generalizing noted noted' with
  | done result => exact ⟨first, second⟩
  | perform op rest inductionHypothesis =>
    exact ⟨⟨first.1, second.1⟩, fun answer => inductionHypothesis answer (first.2 answer) (second.2 answer)⟩

/-! ## Executions -/

section Executions

variable {Op : Type → Type 1} {ε α β σ κ : Type}

/-- One operation as it was performed: the world before it and after it. -/
structure Moment (σ : Type) where
  before : σ
  after : σ

/-- A program performs its operations, each at a moment of its own: between two of
them the world may have moved. -/
inductive Executes (serve : (β : Type) → κ → Op β → σ → β × σ) (ready : κ → σ → Prop) :
    Program Op ε α → List (Moment σ) → Except ε α → Prop where
  | done (result : Except ε α) : Executes serve ready (.done result) [] result
  | perform {β : Type} (op : Op β) (rest : β → Program Op ε α) (env : κ) (world : σ) (moments : List (Moment σ))
      (result : Except ε α) (met : ready env world) (goes : Executes serve ready (rest (serve _ env op world).1) moments result) :
      Executes serve ready (.perform op rest) (⟨world, (serve _ env op world).2⟩ :: moments) result

variable {serve : (β : Type) → κ → Op β → σ → β × σ} {ready : κ → σ → Prop}

/-- A sequence executes its first part, and its rest unless the first part failed. -/
theorem Executes.of_bind {first : Program Op ε α} {next : α → Program Op ε β} {moments : List (Moment σ)}
    {result : Except ε β} (executes : Executes serve ready (first >>= next) moments result) :
    (∃ failure, Executes serve ready first moments (.error failure) ∧ result = .error failure) ∨
      ∃ value before after, Executes serve ready first before (.ok value) ∧
        Executes serve ready (next value) after result ∧ moments = before ++ after := by
  induction first generalizing moments with
  | done outcome =>
    cases outcome with
    | ok value => exact .inr ⟨value, [], moments, .done _, executes, rfl⟩
    | error failure =>
      cases executes
      exact .inl ⟨failure, .done _, rfl⟩
  | perform op rest inductionHypothesis =>
    cases executes with
    | perform _ _ env world moments _ met goes =>
      rcases inductionHypothesis _ goes with ⟨failure, failed, ends⟩ | ⟨value, before, after, succeeded, continued, split⟩
      · exact .inl ⟨failure, .perform op rest env world moments _ met failed, ends⟩
      · refine .inr ⟨value, _ :: before, after, .perform op rest env world before _ met succeeded, continued, ?_⟩
        rw [split, List.cons_append]

/-- What the moments of a program are when it ends with a value, and when it ends with
an error of the given kind. -/
structure Settles (serve : (β : Type) → κ → Op β → σ → β × σ) (ready : κ → σ → Prop) (kind : ε → Prop)
    (fine failed : List (Moment σ) → Prop) (program : Program Op ε α) : Prop where
  value : ∀ moments value, Executes serve ready program moments (.ok value) → fine moments
  failure : ∀ moments failure, Executes serve ready program moments (.error failure) → kind failure → failed moments

namespace Settles

variable {kind : ε → Prop} {fine failed quiet : List (Moment σ) → Prop}

protected theorem pure {value : α} (nothing : fine []) :
    Settles serve ready kind fine failed (pure value : Program Op ε α) where
  value _ _ executes := by
    cases executes
    exact nothing
  failure _ _ executes := by cases executes

protected theorem fail {failure : ε} (nothing : kind failure → failed []) :
    Settles serve ready kind fine failed (Program.fail failure : Program Op ε α) where
  value _ _ executes := by cases executes
  failure _ _ executes := by
    cases executes
    exact nothing

/-- One operation, and then nothing. -/
protected theorem ask {op : Op α} (performed : ∀ env world, ready env world → fine [⟨world, (serve _ env op world).2⟩]) :
    Settles serve ready kind fine failed (Program.ask op : Program Op ε α) where
  value _ _ executes := by
    cases executes with
    | perform _ _ env world _ _ met goes =>
      cases goes
      exact performed env world met
  failure _ _ executes := by
    cases executes with
    | perform _ _ env world _ _ met goes => cases goes

/-- A sequence whose first part leaves moments that what follows may be preceded by. -/
protected theorem bind {first : Program Op ε α} {next : α → Program Op ε β}
    (head : Settles serve ready kind quiet failed first) (tail : ∀ value, Settles serve ready kind fine failed (next value))
    (before : ∀ earlier later, quiet earlier → fine later → fine (earlier ++ later))
    (beforeFailed : ∀ earlier later, quiet earlier → failed later → failed (earlier ++ later)) :
    Settles serve ready kind fine failed (first >>= next) where
  value moments value executes := by
    rcases executes.of_bind with ⟨failure, _, ends⟩ | ⟨middle, earlier, later, started, continued, rfl⟩
    · cases ends
    · exact before _ _ (head.value _ _ started) ((tail middle).value _ _ continued)
  failure moments failure executes expected := by
    rcases executes.of_bind with ⟨thrown, stopped, ends⟩ | ⟨middle, earlier, later, started, continued, rfl⟩
    · obtain rfl := Except.error.inj ends
      exact head.failure _ _ stopped expected
    · exact beforeFailed _ _ (head.value _ _ started) ((tail middle).failure _ _ continued expected)

/-- A sequence whose first part never ends with a value. -/
protected theorem stop {first : Program Op ε α} {next : α → Program Op ε β}
    (head : Settles serve ready kind (fun _ => False) failed first) : Settles serve ready kind fine failed (first >>= next) where
  value moments value executes := by
    rcases executes.of_bind with ⟨failure, _, ends⟩ | ⟨middle, earlier, later, started, _, rfl⟩
    · cases ends
    · exact (head.value _ _ started).elim
  failure moments failure executes expected := by
    rcases executes.of_bind with ⟨thrown, stopped, ends⟩ | ⟨middle, earlier, later, started, _, rfl⟩
    · obtain rfl := Except.error.inj ends
      exact head.failure _ _ stopped expected
    · exact (head.value _ _ started).elim

/-- A sequence that ends with the value its first part leads to. -/
protected theorem last {first : Program Op ε α} {next : α → Program Op ε β}
    (head : Settles serve ready kind fine failed first) (ends : ∀ value, ∃ result, next value = pure result) :
    Settles serve ready kind fine failed (first >>= next) where
  value moments value executes := by
    rcases executes.of_bind with ⟨failure, _, ends⟩ | ⟨middle, earlier, later, started, continued, rfl⟩
    · cases ends
    · obtain ⟨result, same⟩ := ends middle
      rw [same] at continued
      cases continued
      rw [List.append_nil]
      exact head.value _ _ started
  failure moments failure executes expected := by
    rcases executes.of_bind with ⟨thrown, stopped, ends⟩ | ⟨middle, earlier, later, started, continued, rfl⟩
    · obtain rfl := Except.error.inj ends
      exact head.failure _ _ stopped expected
    · obtain ⟨result, same⟩ := ends middle
      rw [same] at continued
      cases continued

protected theorem mono {program : Program Op ε α} {fine' failed' : List (Moment σ) → Prop}
    (settles : Settles serve ready kind fine failed program) (weaker : ∀ moments, fine moments → fine' moments)
    (weakerFailed : ∀ moments, failed moments → failed' moments) : Settles serve ready kind fine' failed' program where
  value moments value executes := weaker _ (settles.value moments value executes)
  failure moments failure executes expected := weakerFailed _ (settles.failure moments failure executes expected)

end Settles

end Executions

/-! ## Interleavings -/

/-- A program on its way, and what has been noted of it. -/
structure Flight (Op : Type → Type 1) (ε α ν : Type) where
  noted : ν
  rest : Program Op ε α

/-- Whether a program still has an operation to perform. -/
def Flight.active {Op : Type → Type 1} {ε α ν : Type} (flight : Flight Op ε α ν) : Bool :=
  match flight.rest with
  | .done _ => false
  | .perform .. => true

/-- The shared world and every program on its way. -/
structure System (σ : Type) (Op : Type → Type 1) (ε α ν : Type) where
  world : σ
  flights : List (Flight Op ε α ν)

/-- A request arrives, or a program on its way performs its next operation. -/
inductive Event (ρ κ : Type) where
  | arrive (request : ρ)
  | advance (index : Nat) (env : κ)

section Interleaving

variable {σ ρ κ : Type} {Op : Type → Type 1} {ε α ν : Type}

/-- What a system is built from: the program each request starts, what a program
is noted to have at first, and what an operation does to the world. -/
structure Rules (σ ρ κ : Type) (Op : Type → Type 1) (ε α ν : Type) where
  start : ρ → Program Op ε α
  first : ν
  serve : {β : Type} → κ → Op β → σ → β × σ
  watch : Watch Op ν

variable (rules : Rules σ ρ κ Op ε α ν)

/-- One program performs its next operation. -/
def advance (state : System σ Op ε α ν) (index : Nat) (env : κ) : System σ Op ε α ν :=
  match state.flights[index]? with
  | some ⟨noted, .perform op rest⟩ =>
    let outcome := rules.serve env op state.world
    { world := outcome.2
      flights := state.flights.set index ⟨rules.watch.note noted op outcome.1, rest outcome.1⟩ }
  | _ => state

/-- One event of an interleaving. -/
def step (state : System σ Op ε α ν) : Event ρ κ → System σ Op ε α ν
  | .arrive request => { state with flights := state.flights ++ [⟨rules.first, rules.start request⟩] }
  | .advance index env => advance rules state index env

/-- Every program that is not done obeys its watch from here on, and what was noted
of it fits the world. -/
def Sound (fits : σ → ν → Prop) (state : System σ Op ε α ν) : Prop :=
  ∀ flight ∈ state.flights, flight.active = true →
    fits state.world flight.noted ∧ flight.rest.Obeys rules.watch flight.noted fun _ _ => True

/-- The operation a program performs next, if it is on its way. -/
inductive Performs (state : System σ Op ε α ν) (index : Nat) (noted : ν) {β : Type} (op : Op β) : Prop where
  | mk (rest : β → Program Op ε α) (found : state.flights[index]? = some ⟨noted, .perform op rest⟩)

variable {rules} {fits : σ → ν → Prop} {state : System σ Op ε α ν}

/-- In a sound system the next operation of every program is allowed by what was
noted of it. -/
theorem Sound.allowed {index : Nat} {noted : ν} {β : Type} {op : Op β} (sound : Sound rules fits state)
    (performs : Performs state index noted op) : fits state.world noted ∧ rules.watch.allowed noted op := by
  obtain ⟨rest, found⟩ := performs
  obtain ⟨fitting, permitted, _⟩ := sound _ (List.mem_of_getElem? found) rfl
  exact ⟨fitting, permitted⟩

theorem Sound.arrive (sound : Sound rules fits state) (request : ρ) (fitting : fits state.world rules.first)
    (obeys : (rules.start request).Obeys rules.watch rules.first fun _ _ => True) :
    Sound rules fits (step rules state (.arrive request)) := by
  intro flight member active
  rcases List.mem_append.mp member with old | new
  · exact sound flight old active
  · obtain rfl := List.mem_singleton.mp new
    exact ⟨fitting, obeys⟩

/-- An operation keeps a system sound when its own note fits the world it leaves,
and the notes of all programs that are not done still do. -/
theorem Sound.advance (sound : Sound rules fits state) (index : Nat) (env : κ)
    (own : ∀ {β : Type} {noted : ν} {op : Op β}, Performs state index noted op →
      fits (rules.serve env op state.world).2 (rules.watch.note noted op (rules.serve env op state.world).1))
    (others : ∀ flight ∈ state.flights, flight.active = true →
      fits (step rules state (.advance index env)).world flight.noted) :
    Sound rules fits (step rules state (.advance index env)) := by
  intro flight member active
  revert member others
  simp only [step, Interaction.advance]
  split
  · next noted β op rest found =>
    intro others member
    rcases List.mem_or_eq_of_mem_set member with old | rfl
    · exact ⟨others flight old active, (sound flight old active).2⟩
    · have obeys := (sound _ (List.mem_of_getElem? found) rfl).2
      exact ⟨own ⟨rest, found⟩, obeys.2 _⟩
  · intro others member
    exact ⟨others flight member active, (sound flight member active).2⟩

/-! ## What stays noted -/

/-- What every note keeps of a program holds of it after any event. -/
theorem step_noted {holds : ν → Prop} (keeps : ∀ noted {β : Type} (op : Op β) (answer : β), holds noted →
      holds (rules.watch.note noted op answer)) (event : Event ρ κ) {index : Nat}
    (noted : ∃ flight, state.flights[index]? = some flight ∧ holds flight.noted) :
    ∃ flight, (step rules state event).flights[index]? = some flight ∧ holds flight.noted := by
  obtain ⟨flight, found, holding⟩ := noted
  have inside := (List.getElem?_eq_some_iff.mp found).1
  cases event with
  | arrive request => exact ⟨flight, (List.getElem?_append_left inside).trans found, holding⟩
  | advance other env =>
    simp only [step, Interaction.advance]
    split
    · next noted β op rest here =>
      by_cases same : other = index
      · subst same
        obtain rfl := Option.some.inj (here.symm.trans found)
        exact ⟨_, List.getElem?_set_self inside, keeps _ _ _ holding⟩
      · exact ⟨flight, (List.getElem?_set_ne same).trans found, holding⟩
    · exact ⟨flight, found, holding⟩

theorem run_noted {holds : ν → Prop} (keeps : ∀ noted {β : Type} (op : Op β) (answer : β), holds noted →
      holds (rules.watch.note noted op answer)) (events : List (Event ρ κ)) {index : Nat}
    (noted : ∃ flight, state.flights[index]? = some flight ∧ holds flight.noted) :
    ∃ flight, (Machine.run (step rules) state events).flights[index]? = some flight ∧ holds flight.noted := by
  induction events generalizing state with
  | nil => exact noted
  | cons event events inductionHypothesis => exact inductionHypothesis (step_noted keeps event noted)

/-! ## What single requests may do -/

/-- What the program of a request may do after what was noted, and what it may end
with. -/
structure Duty (ρ : Type) (Op : Type → Type 1) (ε α ν : Type) where
  allowed : ρ → {β : Type} → ν → Op β → Prop
  ends : ρ → Except ε α → ν → Prop

/-- Two duties at once, each with notes of its own. -/
def Duty.both {ρ : Type} {Op : Type → Type 1} {ε α μ ν : Type} (one : Duty ρ Op ε α μ) (other : Duty ρ Op ε α ν) :
    Duty ρ Op ε α (μ × ν) where
  allowed request _ noted op := one.allowed request noted.1 op ∧ other.allowed request noted.2 op
  ends request result noted := one.ends request result noted.1 ∧ other.ends request result noted.2

/-- The watch over one request's program. -/
def Duty.watch (duty : Duty ρ Op ε α ν) (watch : Watch Op ν) (request : ρ) : Watch Op ν where
  note := watch.note
  allowed := duty.allowed request

/-- The request an event brings. -/
def Event.arrival : Event ρ κ → Option ρ
  | .arrive request => some request
  | .advance .. => none

/-- The requests that arrived, in order. -/
def arrivals (events : List (Event ρ κ)) : List ρ := events.filterMap Event.arrival

theorem arrivals_cons (event : Event ρ κ) (events : List (Event ρ κ)) :
    arrivals (event :: events) = arrivals [event] ++ arrivals events := by
  rw [← List.singleton_append, arrivals, List.filterMap_append]
  rfl

theorem arrivals_append (events more : List (Event ρ κ)) : arrivals (events ++ more) = arrivals events ++ arrivals more :=
  List.filterMap_append

/-- Each program meets its own request's duty from here on, and fits. -/
structure Meets (rules : Rules σ ρ κ Op ε α ν) (duty : Duty ρ Op ε α ν) (fits : Flight Op ε α ν → Prop)
    (requests : List ρ) (state : System σ Op ε α ν) : Prop where
  counted : state.flights.length = requests.length
  each : ∀ (index : Nat) flight request, state.flights[index]? = some flight → requests[index]? = some request →
    fits flight ∧ flight.rest.Obeys (duty.watch rules.watch request) flight.noted (duty.ends request)

variable {duty : Duty ρ Op ε α ν} {kept kept' : Flight Op ε α ν → Prop} {requests : List ρ}

theorem Meets.initial (world : σ) : Meets rules duty kept [] ⟨world, []⟩ where
  counted := rfl
  each _ _ _ found := by simp at found

/-- The next operation of every program is one its request allows. -/
theorem Meets.allowed {index : Nat} {noted : ν} {β : Type} {op : Op β} (meets : Meets rules duty kept requests state)
    (performs : Performs state index noted op) :
    ∃ request rest, requests[index]? = some request ∧ kept ⟨noted, .perform op rest⟩ ∧
      duty.allowed request noted op := by
  obtain ⟨rest, found⟩ := performs
  obtain ⟨inside, _⟩ := List.getElem?_eq_some_iff.mp found
  obtain ⟨request, asked⟩ : ∃ request, requests[index]? = some request :=
    ⟨_, List.getElem?_eq_getElem (by rw [← meets.counted]; exact inside)⟩
  obtain ⟨fitting, permitted, _⟩ := meets.each index _ request found asked
  exact ⟨request, rest, asked, fitting, permitted⟩

/-- The answer of a program that is done is one its request may end with. -/
theorem Meets.ends {index : Nat} {noted : ν} {result : Except ε α} {request : ρ}
    (meets : Meets rules duty kept requests state) (found : state.flights[index]? = some ⟨noted, .done result⟩)
    (asked : requests[index]? = some request) : kept ⟨noted, .done result⟩ ∧ duty.ends request result noted :=
  meets.each index _ request found asked

/-- An event keeps every program to its duty when a program that arrives starts to
meet its own, and the notes still fit after it. -/
theorem Meets.step (meets : Meets rules duty kept requests state) (event : Event ρ κ)
    (starts : ∀ request, event = .arrive request → kept' ⟨rules.first, rules.start request⟩ ∧
      (rules.start request).Obeys (duty.watch rules.watch request) rules.first (duty.ends request))
    (own : ∀ index env (β : Type) noted (op : Op β) rest, event = .advance index env →
      state.flights[index]? = some ⟨noted, .perform op rest⟩ → kept ⟨noted, .perform op rest⟩ →
      kept' ⟨rules.watch.note noted op (rules.serve env op state.world).1, rest (rules.serve env op state.world).1⟩)
    (others : ∀ flight ∈ state.flights, kept flight → kept' flight) :
    Meets rules duty kept' (requests ++ arrivals [event]) (step rules state event) := by
  cases event with
  | arrive request =>
    obtain ⟨fitting, obeys⟩ := starts request rfl
    constructor
    · simp [Interaction.step, arrivals, Event.arrival, meets.counted]
    · intro index flight asked found named
      simp only [Interaction.step] at found
      by_cases old : index < state.flights.length
      · rw [List.getElem?_append_left old] at found
        rw [List.getElem?_append_left (by rw [← meets.counted]; exact old)] at named
        obtain ⟨fits, obeyed⟩ := meets.each index flight asked found named
        exact ⟨others _ (List.mem_of_getElem? found) fits, obeyed⟩
      · have inside := (List.getElem?_eq_some_iff.mp found).1
        simp only [List.length_append, List.length_singleton] at inside
        obtain rfl : index = state.flights.length := by omega
        rw [List.getElem?_concat_length] at found
        have brought : arrivals [(.arrive request : Event ρ κ)] = [request] := rfl
        rw [meets.counted, brought, List.getElem?_concat_length] at named
        obtain rfl := Option.some.inj found
        obtain rfl := Option.some.inj named
        exact ⟨fitting, obeys⟩
  | advance index env =>
    have nobody : arrivals [(.advance index env : Event ρ κ)] = [] := rfl
    rw [nobody, List.append_nil]
    simp only [Interaction.step, Interaction.advance]
    split
    · next noted β op rest here =>
      constructor
      · rw [List.length_set, meets.counted]
      · intro other flight asked found named
        by_cases same : other = index
        · subst same
          rw [List.getElem?_set_self (List.getElem?_eq_some_iff.mp here).1] at found
          obtain rfl := Option.some.inj found
          obtain ⟨fits, _, obeyed⟩ := meets.each other _ asked here named
          exact ⟨own other env β noted op rest rfl here fits, obeyed _⟩
        · rw [List.getElem?_set_ne (Ne.symm same)] at found
          obtain ⟨fits, obeyed⟩ := meets.each other flight asked found named
          exact ⟨others _ (List.mem_of_getElem? found) fits, obeyed⟩
    · constructor
      · exact meets.counted
      · intro other flight asked found named
        obtain ⟨fits, obeyed⟩ := meets.each other flight asked found named
        exact ⟨others _ (List.mem_of_getElem? found) fits, obeyed⟩

end Interleaving

end Interaction
