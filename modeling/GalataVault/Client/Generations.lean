import GalataVault.Client.Threads

/-!
# The generation of a handle

A refresh fetches a generation, checks it against the pin it read, puts its view in
force and then pins it. The view and the pin are under two locks and neither is held
from the check to the write, so another refresh may do all of this in between. A
handle goes forward as long as none does.

A pin holds the digest of a descriptor: two descriptors of one generation are told
apart by it.
-/

namespace GalataVault.Client

open Proto Interaction

section

variable [Crypto] [Digests] [Ed25519] [Unsealing] (handle : Handle)

/-- Whether no refresh comes between another's reading of the pin and its two writes: a
view is put in force while the pin it was checked against is in force, and is that of
the view in force, and it is pinned while it is in force itself. -/
def undisturbed (state : Threads) : ThreadEvent → Bool
  | .arrive _ => true
  | .advance index _ =>
    match state.flights[index]? with
    | some ⟨seen, .perform (.setView _) _⟩ =>
      state.world.pins.descriptor = seen.pinned && seen.pinned = some state.world.view.pin
    | some ⟨_, .perform (.setPin pin) _⟩ => pin = state.world.view.pin
    | _ => true

/-- The view and the pin of a later moment continue those of an earlier one. -/
structure Forward (earlier later : Shared) : Prop where
  view : earlier.view.pin.Continued later.view.pin
  pin : ∀ pin, earlier.pins.descriptor = some pin → ∃ next, later.pins.descriptor = some next ∧ pin.Continued next

omit [Crypto] [Ed25519] [Unsealing] in
theorem Forward.refl (shared : Shared) : Forward shared shared where
  view := .refl _
  pin pin found := ⟨pin, found, .refl pin⟩

omit [Crypto] [Ed25519] [Unsealing] in
theorem Forward.trans {first second third : Shared} (one : Forward first second) (two : Forward second third) :
    Forward first third where
  view := one.view.trans two.view
  pin pin found := by
    obtain ⟨middle, foundMiddle, continued⟩ := one.pin pin found
    obtain ⟨last, foundLast, goesOn⟩ := two.pin middle foundMiddle
    exact ⟨last, foundLast, continued.trans goesOn⟩

omit [Crypto] [Ed25519] [Unsealing] in
theorem Forward.of_same {earlier later : Shared} (view : later.view = earlier.view)
    (pin : later.pins.descriptor = earlier.pins.descriptor) : Forward earlier later where
  view := view ▸ .refl _
  pin known found := ⟨known, pin.trans found, .refl known⟩

omit [Crypto] [Ed25519] [Unsealing] in
theorem Forward.not_back {earlier later : Shared}
    (less : later.view.descriptor.generation < earlier.view.descriptor.generation) : ¬ Forward earlier later := by
  intro forward
  exact Nat.not_le_of_lt less forward.view.le

/-- The pin in force is that of the view in force, or some call has yet to pin it; and
it is never ahead of it. -/
structure Settling (state : Threads) : Prop where
  pinned : ∃ pin, state.world.pins.descriptor = some pin ∧ pin.Continued state.world.view.pin
  whole : state.world.pins.descriptor = some state.world.view.pin ∨
    ∃ flight ∈ state.flights, flight.noted.adopting ≠ none

omit [Crypto] [Digests] [Ed25519] [Unsealing] in
theorem checkVersion_view (shared : Shared) (kind : RecordCode) (index : NameHmac) (got : Nat) :
    (shared.checkVersion kind index got).2.view = shared.view ∧
      (shared.checkVersion kind index got).2.pins.descriptor = shared.pins.descriptor := by
  unfold Shared.checkVersion
  split
  · exact ⟨rfl, by cases kind <;> rfl⟩
  · split
    · exact ⟨rfl, rfl⟩
    · exact ⟨rfl, by cases kind <;> rfl⟩

omit [Crypto] [Digests] [Ed25519] [Unsealing] in
/-- A flight that has yet to pin a view is still there when another takes a step, and
when it takes one itself that keeps its notes. -/
theorem adopting_stays {flights : List (Flight HandleOp Error Returned Seen)} {index : Nat}
    {before flight : Flight HandleOp Error Returned Seen} (here : flights[index]? = some before)
    (same : flight.noted.adopting = before.noted.adopting) (some_adopts : ∃ old ∈ flights, old.noted.adopting ≠ none) :
    ∃ new ∈ flights.set index flight, new.noted.adopting ≠ none := by
  obtain ⟨old, member, adopting⟩ := some_adopts
  obtain ⟨i, found⟩ := List.mem_iff_getElem?.mp member
  by_cases mine : i = index
  · subst mine
    obtain rfl := Option.some.inj (here.symm.trans found)
    refine ⟨flight, List.mem_set (List.getElem?_eq_some_iff.mp here).1 flight, ?_⟩
    rw [same]
    exact adopting
  · refine ⟨old, List.mem_of_getElem? (i := i) ?_, adopting⟩
    rw [List.getElem?_set_ne (Ne.symm mine)]
    exact found

/-- One undisturbed event goes forward. -/
theorem step_forward {requests : List HandleCall} {state : Threads} {event : ThreadEvent}
    (meets : Meets (threads handle) calls (fun _ => True) requests state) (settling : Settling state)
    (quiet : undisturbed state event = true) :
    Settling (Interaction.step (threads handle) state event) ∧
      Forward state.world (Interaction.step (threads handle) state event).world := by
  cases event with
  | arrive call =>
    refine ⟨⟨settling.pinned, ?_⟩, .refl _⟩
    rcases settling.whole with settled | ⟨flight, member, adopting⟩
    · exact .inl settled
    · exact .inr ⟨flight, List.mem_append_left _ member, adopting⟩
  | advance index answers =>
    simp only [Interaction.step, Interaction.advance]
    split
    · next seen β op rest here =>
      obtain ⟨call, _, _, _, allowed⟩ := meets.allowed ⟨rest, here⟩
      -- What keeps the view, the pin and the notes keeps everything.
      have keeps : (state.world.perform answers op).2.view = state.world.view →
          (state.world.perform answers op).2.pins.descriptor = state.world.pins.descriptor →
          (seen.note op (state.world.perform answers op).1).adopting = seen.adopting →
          Settling ⟨(state.world.perform answers op).2, state.flights.set index
            ⟨seen.note op (state.world.perform answers op).1, rest (state.world.perform answers op).1⟩⟩ ∧
              Forward state.world (state.world.perform answers op).2 := by
        intro view pin note
        refine ⟨⟨?_, ?_⟩, .of_same view pin⟩
        · rw [view, pin]
          exact settling.pinned
        · rcases settling.whole with settled | adopts
          · left
            rw [view, pin]
            exact settled
          · exact .inr (adopting_stays here note adopts)
      cases op with
      | view | pinned | adopt => exact keeps rfl rfl rfl
      | checkVersion name kind index got =>
        obtain ⟨view, pin⟩ := checkVersion_view state.world kind index got
        exact keeps view pin rfl
      | ask query => cases query <;> exact keeps rfl rfl rfl
      | setView next =>
        simp only [undisturbed, here, Bool.and_eq_true, decide_eq_true_eq] at quiet
        have continued : state.world.view.pin.Continued next.pin := allowed _ quiet.2
        refine ⟨⟨?_, .inr ?_⟩, continued, fun pin found => ⟨pin, found, .refl pin⟩⟩
        · obtain ⟨pin, found, before⟩ := settling.pinned
          exact ⟨pin, found, before.trans continued⟩
        · exact ⟨_, List.mem_set (List.getElem?_eq_some_iff.mp here).1 _, Option.some_ne_none next⟩
      | setPin pin =>
        simp only [undisturbed, here, decide_eq_true_eq] at quiet
        refine ⟨⟨⟨pin, rfl, quiet ▸ .refl _⟩, .inl (congrArg some quiet)⟩, .refl _, fun known found => ?_⟩
        obtain ⟨old, foundOld, before⟩ := settling.pinned
        obtain rfl := Option.some.inj (foundOld.symm.trans found)
        exact ⟨pin, rfl, quiet ▸ before⟩
    · exact ⟨settling, .refl _⟩

theorem run_forward {requests : List HandleCall} {state : Threads} {events : List ThreadEvent}
    (meets : Meets (threads handle) calls (fun _ => True) requests state) (settling : Settling state)
    (quiet : Machine.Throughout (Interaction.step (threads handle)) (fun state event => undisturbed state event = true)
      state events) :
    Settling (runThreads handle state events) ∧ Forward state.world (runThreads handle state events).world := by
  induction events generalizing requests state with
  | nil => exact ⟨settling, .refl _⟩
  | cons event events inductionHypothesis =>
    obtain ⟨settled, forward⟩ := step_forward handle meets settling quiet.1
    have stepped := threads_meet handle meets [event]
    obtain ⟨later, further⟩ := inductionHypothesis stepped settled quiet.2
    exact ⟨later, forward.trans further⟩

/-- A handle's generation never goes back in a run in which no refresh disturbs another:
whatever the server answers and however the calls interleave, the view and the pin of a
later moment are of a later generation than those of an earlier one, or the same
descriptor; and when all calls have returned, the pin is that of the view. -/
theorem generation_never_goes_back (view : View) (before after : List ThreadEvent)
    (quiet : Machine.Throughout (Interaction.step (threads handle)) (fun state event => undisturbed state event = true)
      ⟨.opened view, []⟩ (before ++ after)) :
    Forward (runThreads handle ⟨.opened view, []⟩ before).world
        (runThreads handle ⟨.opened view, []⟩ (before ++ after)).world ∧
      ((∀ flight ∈ (runThreads handle ⟨.opened view, []⟩ (before ++ after)).flights, flight.active = false) →
        (runThreads handle ⟨.opened view, []⟩ (before ++ after)).world.pins.descriptor =
          some (runThreads handle ⟨.opened view, []⟩ (before ++ after)).world.view.pin) := by
  have started : Meets (threads handle) calls (fun _ => True) [] ⟨.opened view, []⟩ := .initial _
  have settling : Settling ⟨.opened view, []⟩ := ⟨⟨view.pin, rfl, .refl _⟩, .inl rfl⟩
  obtain ⟨first, second⟩ := Machine.throughout_append.mp quiet
  have meets := threads_meet handle started before
  obtain ⟨settlingBefore, _⟩ := run_forward handle started settling first
  obtain ⟨settlingAfter, forward⟩ := run_forward handle meets settlingBefore second
  have joined : runThreads handle ⟨.opened view, []⟩ (before ++ after) =
      runThreads handle (runThreads handle ⟨.opened view, []⟩ before) after := Machine.run_append _ _ _
  rw [joined]
  refine ⟨forward, fun returned => ?_⟩
  rcases settlingAfter.whole with settled | ⟨flight, member, adopting⟩
  · exact settled
  · -- A call that has returned has pinned what it put in force.
    exfalso
    have later := threads_meet handle meets after
    obtain ⟨index, found⟩ := List.mem_iff_getElem?.mp member
    obtain ⟨seen, rest⟩ := flight
    have done := returned _ member
    cases rest with
    | perform op rest => cases done
    | done result =>
      obtain ⟨inside, _⟩ := List.getElem?_eq_some_iff.mp found
      rw [later.counted] at inside
      obtain ⟨_, ends⟩ := later.ends found (List.getElem?_eq_getElem inside)
      exact adopting ends.1

end

/-! ## Two refreshes -/

/-- Two refreshes that have read the same pin. The first was answered generation 2 and
is about to write; the second, answered generation 3, has returned. -/
def overtaken : List ThreadEvent :=
  [.arrive .refresh, .arrive .refresh] ++ List.replicate 3 (.advance 0 (keptAnswers 2)) ++
    List.replicate 5 (.advance 1 (keptAnswers 3))

/-- The older refresh finishes last: the handle goes back from generation 3 to 2, both
of its view and of its pin, and stays there. -/
theorem older_refresh_finishes_last :
    let _ := plain
    let _ := Backend.checksum
    let _ := plainVerify
    let _ := plainUnseal
    let run := runThreads keptHandle ⟨.opened (keptView 1), []⟩
    let later := overtaken ++ List.replicate 2 (.advance 0 (keptAnswers 2))
    (run overtaken).world.view.descriptor.generation = 3 ∧
      (run overtaken).world.pins.descriptor = some (keptView 3).pin ∧
      (run later).world.view.descriptor.generation = 2 ∧ (run later).world.pins.descriptor = some (keptView 2).pin ∧
      (∀ flight ∈ (run later).flights, flight.active = false) ∧ ¬ Forward (run overtaken).world (run later).world := by
  intro _ _ _ _ run later
  have three : (run overtaken).world.view.descriptor.generation = 3 := by decide +kernel
  have two : (run later).world.view.descriptor.generation = 2 := by decide +kernel
  refine ⟨three, by decide +kernel, two, by decide +kernel, by decide +kernel, ?_⟩
  apply Forward.not_back
  rw [three, two]
  decide

/-- A refresh that is left alone goes forward to generation 2. -/
theorem lone_refresh_goes_forward :
    let _ := plain
    let _ := Backend.checksum
    let _ := plainVerify
    let _ := plainUnseal
    let run := runThreads keptHandle ⟨.opened (keptView 1), []⟩
    let events := List.replicate 5 (.advance 0 (keptAnswers 2))
    Forward (run [.arrive .refresh]).world (run ([.arrive .refresh] ++ events)).world ∧
      (run ([.arrive .refresh] ++ events)).world.pins.descriptor = some (keptView 2).pin := by
  intro _ _ _ _ run events
  obtain ⟨forward, settled⟩ := @generation_never_goes_back plain Backend.checksum plainVerify plainUnseal keptHandle
    (keptView 1) [.arrive .refresh] events (by decide +kernel)
  refine ⟨forward, (settled (by decide +kernel)).trans (congrArg some ?_)⟩
  have view : (run ([.arrive .refresh] ++ events)).world.view = keptView 2 := by decide +kernel
  exact congrArg View.pin view

end GalataVault.Client
