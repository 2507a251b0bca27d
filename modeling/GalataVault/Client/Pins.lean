import GalataVault.Client.Honesty
import GalataVault.Library.MachineInt

/-!
# Following descriptors from a pin

A handle that remembers a generation accepts a newer one only through the descriptors
between them. What the walk over the served list establishes is said here of the list
alone, whatever it holds: the pinned descriptor is the one that the accepted descriptor's
previous hashes lead back to.

A generation is a 32-bit number in the source, and the walk adds one to it. The addition
leaves the type only where the walk has reached the last generation there is and the list
goes on.
-/

namespace GalataVault.Client

open Proto Interaction MachineInt

/-! ## The check on machine integers -/

/-- The last generation there is. -/
def u32Max : Nat := 2 ^ 32 - 1

/-- There is a generation after every one but the last. -/
theorem u32_holds_succ {generation : Nat} (fits : generation ≤ u32Max) :
    u32.Holds ((generation : Int) + 1) ↔ generation ≠ u32Max := by
  simp only [IntType.Holds, u32, u32Max] at *
  omega

section

variable [Digests]

/-- The check of a pin against the descriptors served after it. -/
def checkPin (pin : DescriptorPin) (d : Descriptor) (served : List Descriptor) : Except Error Unit :=
  if d.generation < pin.generation then .error (.integrity (.generationRollback pin.generation d.generation))
  else if d.generation = pin.generation then
    if d.hash = pin.hash then .ok () else .error (.integrity (.generationRollback pin.generation d.generation))
  else
    (Handle.followChain d pin served).bind fun last =>
      if last ≠ .of d then .error (.integrity (.bindingMismatch "descriptor chain")) else .ok ()

/-- The loop over the served descriptors, with the addition as the build computes it. -/
def followChainU32 (build : Build) (d : Descriptor) : DescriptorPin → List Descriptor → Calc (Except Error DescriptorPin)
  | pin, [] => pure (.ok pin)
  | pin, next :: rest =>
    if d.generation < next.generation then pure (.ok pin)
    else do
      let expected ← Calc.result build u32 (pin.generation + 1)
      if (next.generation : Int) ≠ expected ∨ next.prevHash ≠ pin.hash then
        pure (.error (.integrity (.bindingMismatch "descriptor chain")))
      else followChainU32 build d (.of next) rest

/-- `check_descriptor_pin` on the descriptors served after the pin. -/
def checkPinU32 (build : Build) (pin : DescriptorPin) (d : Descriptor) (served : List Descriptor) :
    Calc (Except Error Unit) :=
  if d.generation < pin.generation then pure (.error (.integrity (.generationRollback pin.generation d.generation)))
  else if d.generation = pin.generation then
    pure (if d.hash = pin.hash then .ok () else .error (.integrity (.generationRollback pin.generation d.generation)))
  else do
    let followed ← followChainU32 build d pin served
    pure (followed.bind fun last =>
      if last ≠ .of d then .error (.integrity (.bindingMismatch "descriptor chain")) else .ok ())

/-- A handle checks a pin against what it is served, where it has to ask at all. -/
theorem Handle.checkDescriptorPin_eq [Crypto] [Ed25519] [Unsealing] (handle : Handle) (pin : DescriptorPin)
    (d : Descriptor) :
    handle.checkDescriptorPin pin d =
      if d.generation ≤ pin.generation then Action.check (checkPin pin d [])
      else handle.descriptorsAfter pin.generation >>= fun served => Action.check (checkPin pin d served) := by
  unfold Handle.checkDescriptorPin checkPin
  by_cases older : d.generation < pin.generation
  · rw [if_pos older, if_pos older, if_pos (Nat.le_of_lt older)]
    rfl
  · rw [if_neg older, if_neg older]
    by_cases same : d.generation = pin.generation
    · rw [if_pos same, if_pos same, if_pos (Nat.le_of_eq same)]
      split <;> rfl
    · rw [if_neg same, if_neg same, if_neg (by omega)]
      congr 1
      funext served
      rw [if_neg older, if_neg same]
      cases Handle.followChain d pin served with
      | error e => rfl
      | ok last =>
        change (if _ then _ else _) = Action.check (if _ then _ else _)
        split <;> rfl

/-! ## Overrunning the last generation -/

/-- The descriptors follow one another from the pin. -/
def Linked (pin : DescriptorPin) : List Descriptor → Prop
  | [] => True
  | next :: rest => next.generation = pin.generation + 1 ∧ next.prevHash = pin.hash ∧ Linked (.of next) rest

/-- The list leads from the pin to the last generation there is, and goes on. -/
def Overruns (pin : DescriptorPin) (served : List Descriptor) : Prop :=
  ∃ chain next rest, served = chain ++ next :: rest ∧ Linked pin chain ∧ pin.generation + chain.length = u32Max

theorem overruns_nil (pin : DescriptorPin) : ¬ Overruns pin [] := by
  rintro ⟨chain, next, rest, split, _⟩
  simp at split

theorem overruns_cons {pin : DescriptorPin} {next : Descriptor} {rest : List Descriptor} :
    Overruns pin (next :: rest) ↔
      pin.generation = u32Max ∨
        next.generation = pin.generation + 1 ∧ next.prevHash = pin.hash ∧ Overruns (.of next) rest := by
  constructor
  · rintro ⟨chain, last, more, split, linked, reaches⟩
    cases chain with
    | nil => exact .inl (by simpa using reaches)
    | cons first chain =>
      obtain ⟨rfl, rfl⟩ := List.cons.inj split
      obtain ⟨counts, hashes, linked⟩ := linked
      refine .inr ⟨counts, hashes, chain, last, more, rfl, linked, ?_⟩
      change next.generation + chain.length = _
      rw [List.length_cons] at reaches
      omega
  · rintro (atLast | ⟨counts, hashes, chain, last, more, rfl, linked, reaches⟩)
    · exact ⟨[], next, rest, rfl, trivial, by simpa using atLast⟩
    · refine ⟨next :: chain, last, more, rfl, ⟨counts, hashes, linked⟩, ?_⟩
      change next.generation + chain.length = _ at reaches
      rw [List.length_cons]
      omega

/-- The walk is exact unless the list overruns the last generation, and then it is the walk
over unbounded generations. -/
theorem followChainU32_exact (build : Build) {d : Descriptor} (fits : d.generation ≤ u32Max) {pin : DescriptorPin}
    {served : List Descriptor} (typed : ∀ next ∈ served, next.generation ≤ u32Max) (upTo : pin.generation ≤ d.generation) :
    ((followChainU32 build d pin served).held = true ↔ ¬ (d.generation = u32Max ∧ Overruns pin served)) ∧
      ((followChainU32 build d pin served).held = true →
        followChainU32 build d pin served = pure (Handle.followChain d pin served)) := by
  induction served generalizing pin with
  | nil =>
    have fine : ¬ (d.generation = u32Max ∧ Overruns pin []) := fun overrun => overruns_nil pin overrun.2
    rw [followChainU32, Handle.followChain]
    exact ⟨iff_of_true rfl fine, fun _ => rfl⟩
  | cons next rest inductionHypothesis =>
    have nextFits : next.generation ≤ u32Max := typed next List.mem_cons_self
    have restFits : ∀ later ∈ rest, later.generation ≤ u32Max := fun later member =>
      typed later (List.mem_cons_of_mem _ member)
    have room := u32_holds_succ (Nat.le_trans upTo fits)
    rw [followChainU32, Handle.followChain, overruns_cons]
    by_cases beyond : d.generation < next.generation
    · rw [if_pos beyond, if_pos beyond]
      exact ⟨iff_of_true rfl fun overrun => by omega, fun _ => rfl⟩
    · rw [if_neg beyond, if_neg beyond, Calc.result_bind_held, room]
      by_cases last : pin.generation = u32Max
      · exact ⟨iff_of_false (fun held => held.1 last) (fun fine => fine ⟨by omega, .inl last⟩),
          fun held => absurd last held.1⟩
      · rw [Calc.result_of_holds (room.mpr last), Calc.bind_of_pure]
        by_cases linked : next.generation = pin.generation + 1 ∧ next.prevHash = pin.hash
        · have follows : ¬ ((next.generation : Int) ≠ (pin.generation : Int) + 1 ∨ next.prevHash ≠ pin.hash) := by
            rintro (skips | breaks)
            · omega
            · exact breaks linked.2
          have follows' : ¬ (next.generation ≠ pin.generation + 1 ∨ next.prevHash ≠ pin.hash) := by
            rintro (skips | breaks)
            · exact skips linked.1
            · exact breaks linked.2
          rw [if_neg follows, if_neg follows']
          have nextUpTo : (DescriptorPin.of next).generation ≤ d.generation := Nat.le_of_not_lt beyond
          obtain ⟨held_iff, exactly⟩ := inductionHypothesis restFits nextUpTo
          constructor
          · constructor
            · rintro held ⟨atEnd, first | later⟩
              · exact last first
              · exact held_iff.mp held.2 ⟨atEnd, later.2.2⟩
            · intro fine
              refine ⟨last, held_iff.mpr fun overrun => fine ⟨overrun.1, .inr ⟨linked.1, linked.2, overrun.2⟩⟩⟩
          · exact fun held => exactly held.2
        · have breaks : (next.generation : Int) ≠ (pin.generation : Int) + 1 ∨ next.prevHash ≠ pin.hash := by
            by_cases counts : next.generation = pin.generation + 1
            · exact .inr fun hashes => linked ⟨counts, hashes⟩
            · exact .inl (by omega)
          have breaks' : next.generation ≠ pin.generation + 1 ∨ next.prevHash ≠ pin.hash := by
            by_cases counts : next.generation = pin.generation + 1
            · exact .inr fun hashes => linked ⟨counts, hashes⟩
            · exact .inl counts
          rw [if_pos breaks, if_pos breaks']
          refine ⟨iff_of_true ⟨last, rfl⟩ ?_, fun _ => rfl⟩
          rintro ⟨_, atLast | ⟨counts, hashes, _⟩⟩
          · exact last atLast
          · exact linked ⟨counts, hashes⟩

/-- The check is exact unless it walks and the walk overruns, and then it is the check over
unbounded generations. -/
theorem checkPinU32_exact (build : Build) (pin : DescriptorPin) {d : Descriptor} {served : List Descriptor}
    (fits : d.generation ≤ u32Max) (typed : ∀ next ∈ served, next.generation ≤ u32Max) :
    ((checkPinU32 build pin d served).held = true ↔
        ¬ (pin.generation < d.generation ∧ d.generation = u32Max ∧ Overruns pin served)) ∧
      ((checkPinU32 build pin d served).held = true →
        checkPinU32 build pin d served = pure (checkPin pin d served)) := by
  unfold checkPinU32 checkPin
  by_cases older : d.generation < pin.generation
  · rw [if_pos older, if_pos older]
    exact ⟨iff_of_true rfl fun overrun => by omega, fun _ => rfl⟩
  · rw [if_neg older, if_neg older]
    by_cases same : d.generation = pin.generation
    · rw [if_pos same, if_pos same]
      exact ⟨iff_of_true rfl fun overrun => by omega, fun _ => rfl⟩
    · have newer : pin.generation < d.generation := by omega
      rw [if_neg same, if_neg same]
      obtain ⟨exact_iff, exactly⟩ := followChainU32_exact build fits typed (Nat.le_of_lt newer)
      by_cases held : (followChainU32 build d pin served).held = true
      · rw [exactly held, Calc.bind_of_pure]
        exact ⟨iff_of_true rfl fun overrun => exact_iff.mp held overrun.2, fun _ => rfl⟩
      · have overruns : d.generation = u32Max ∧ Overruns pin served :=
          not_not.mp fun fine => held (exact_iff.mpr fine)
        refine ⟨iff_of_false (fun all => held (Calc.bind_held all)) (fun fine => fine ⟨newer, overruns⟩), ?_⟩
        exact fun all => absurd (Calc.bind_held all) held

/-! ## What an accepted pin means -/

/-- The hash tells the descriptors of a list apart. -/
def CollisionFree (among : List Descriptor) : Prop := ∀ a ∈ among, ∀ b ∈ among, a.hash = b.hash → a = b

/-- The descriptor `p` is reached from `d` by following previous hashes so many times. -/
inductive LeadsBack (among : List Descriptor) (d : Descriptor) : Nat → Descriptor → Prop
  | here : LeadsBack among d 0 d
  | back {steps : Nat} {q p : Descriptor} (leads : LeadsBack among d steps q) (member : p ∈ among)
      (names : q.prevHash = p.hash) : LeadsBack among d (steps + 1) p

/-- A walk that ends at the descriptor it is for leads back from it to where it began. -/
theorem leadsBack_of_followChain {among served : List Descriptor} {d p : Descriptor} {pin : DescriptorPin}
    (followed : Handle.followChain d pin served = .ok (.of d)) (pinned : DescriptorPin.of p = pin)
    (free : CollisionFree among) (current : d ∈ among) (start : p ∈ among) (within : ∀ next ∈ served, next ∈ among) :
    pin.generation ≤ d.generation ∧ LeadsBack among d (d.generation - pin.generation) p := by
  have ended : pin = .of d → pin.generation ≤ d.generation ∧ LeadsBack among d (d.generation - pin.generation) p := by
    intro same
    obtain rfl : p = d := free p start d current (congrArg DescriptorPin.hash (pinned.trans same))
    obtain rfl := same
    change p.generation ≤ p.generation ∧ LeadsBack among p (p.generation - p.generation) p
    rw [Nat.sub_self]
    exact ⟨Nat.le_refl _, .here⟩
  induction served generalizing pin p with
  | nil => exact ended (Except.ok.inj followed)
  | cons next rest inductionHypothesis =>
    rw [Handle.followChain] at followed
    split at followed
    · exact ended (Except.ok.inj followed)
    · next upTo =>
      split at followed
      · cases followed
      · next linked =>
        rw [not_or, not_not, not_not] at linked
        obtain ⟨counts, hashes⟩ := linked
        have nextMember : next ∈ among := within next List.mem_cons_self
        have walked := inductionHypothesis followed rfl nextMember
          (fun later member => within later (List.mem_cons_of_mem _ member)) ?_
        · obtain ⟨_, leads⟩ := walked
          change LeadsBack among d (d.generation - next.generation) next at leads
          have steps : d.generation - pin.generation = d.generation - next.generation + 1 := by omega
          rw [steps]
          exact ⟨by omega, .back leads start (hashes.trans (congrArg DescriptorPin.hash pinned.symm))⟩
        · intro same
          obtain rfl : next = d := free next nextMember d current (congrArg DescriptorPin.hash same)
          change next.generation ≤ next.generation ∧ LeadsBack among next (next.generation - next.generation) next
          rw [Nat.sub_self]
          exact ⟨Nat.le_refl _, .here⟩

/-- A pin is accepted only for a generation that is not earlier, whose previous hashes lead
back to the pinned descriptor. -/
theorem checkPin_sound {pin : DescriptorPin} {d p : Descriptor} {served : List Descriptor}
    (accepted : checkPin pin d served = .ok ()) (pinned : DescriptorPin.of p = pin)
    (free : CollisionFree (p :: d :: served)) :
    LeadsBack (p :: d :: served) d (d.generation - pin.generation) p := by
  have current : d ∈ p :: d :: served := List.mem_cons_of_mem _ List.mem_cons_self
  unfold checkPin at accepted
  split at accepted
  · cases accepted
  · split at accepted
    · next same =>
      split at accepted
      · next hashes =>
        obtain rfl := pinned
        obtain rfl : d = p := free d current p List.mem_cons_self hashes
        rw [same, Nat.sub_self]
        exact .here
      · cases accepted
    · obtain ⟨last, followed, ends⟩ := except_bind_ok accepted
      split at ends
      · cases ends
      · next same =>
        rw [not_not.mp same] at followed
        exact (leadsBack_of_followChain followed pinned free current List.mem_cons_self
          fun next member => List.mem_cons_of_mem _ (List.mem_cons_of_mem _ member)).2

theorem checkPin_notEarlier {pin : DescriptorPin} {d : Descriptor} {served : List Descriptor}
    (accepted : checkPin pin d served = .ok ()) : pin.generation ≤ d.generation := by
  unfold checkPin at accepted
  split at accepted
  · cases accepted
  · next later => exact Nat.le_of_not_lt later

/-- What an honest server serves is accepted, whatever it went on to after the descriptor
that is checked. -/
theorem checkPin_honest [Crypto] (lineage : Lineage) {p reached now : Nat} (positive : 1 ≤ p) (pinned : p ≤ reached)
    (upTo : reached ≤ now) :
    checkPin (.of (lineage.descriptor p)) (lineage.descriptor reached)
      ((List.range' (p + 1) (now - p)).map lineage.descriptor) = .ok () := by
  have start : (DescriptorPin.of (lineage.descriptor p)).generation = p := lineage.descriptor_generation p
  unfold checkPin
  rw [start, Lineage.descriptor_generation, if_neg (Nat.not_lt.mpr pinned)]
  by_cases same : reached = p
  · subst same
    rw [if_pos rfl, if_pos (show (lineage.descriptor reached).hash = (DescriptorPin.of (lineage.descriptor reached)).hash
      from rfl)]
  · rw [if_neg same, followChain_honest positive pinned upTo]
    exact if_neg (not_not.mpr rfl)

/-! ## Exact and sound -/

/-- The check is exact, and what it accepts leads back to the pin. -/
structure PinChecked (build : Build) (pin : DescriptorPin) (d : Descriptor) (served : List Descriptor) : Prop where
  held : (checkPinU32 build pin d served).held = true
  notEarlier : (checkPinU32 build pin d served).outcome = some (.ok ()) → pin.generation ≤ d.generation
  leadsBack : (checkPinU32 build pin d served).outcome = some (.ok ()) → ∀ p, DescriptorPin.of p = pin →
    CollisionFree (p :: d :: served) → LeadsBack (p :: d :: served) d (d.generation - pin.generation) p

/-- For all generations and all lists, the check is exact and sound if and only if it does
not have to follow a list that leads from the pin to the last generation and goes on; and
it accepts every generation of a vault that was rotated any number of times. -/
theorem pinChecked_iff (build : Build) {pin : DescriptorPin} {d : Descriptor} {served : List Descriptor}
    (fits : d.generation ≤ u32Max) (typed : ∀ next ∈ served, next.generation ≤ u32Max) :
    (PinChecked build pin d served ↔
        ¬ (pin.generation < d.generation ∧ d.generation = u32Max ∧ Overruns pin served)) ∧
      ∀ [Crypto] (lineage : Lineage) (p reached now : Nat), 1 ≤ p → p ≤ reached → reached ≤ now → now ≤ u32Max →
        checkPinU32 build (.of (lineage.descriptor p)) (lineage.descriptor reached)
          ((List.range' (p + 1) (now - p)).map lineage.descriptor) = pure (.ok ()) := by
  constructor
  · obtain ⟨exact_iff, exactly⟩ := checkPinU32_exact build pin fits typed
    constructor
    · exact fun sound => exact_iff.mp sound.held
    · intro fine
      have held := exact_iff.mpr fine
      have same := exactly held
      have accepted : (checkPinU32 build pin d served).outcome = some (.ok ()) → checkPin pin d served = .ok () := by
        rw [same]
        exact Option.some.inj
      exact ⟨held, fun ok => checkPin_notEarlier (accepted ok), fun ok p => checkPin_sound (accepted ok)⟩
  · intro _ lineage p reached now positive pinned upTo below
    have typed : ∀ next ∈ (List.range' (p + 1) (now - p)).map lineage.descriptor, next.generation ≤ u32Max := by
      intro next member
      obtain ⟨g, inside, rfl⟩ := List.mem_map.mp member
      rw [List.mem_range'_1] at inside
      rw [Lineage.descriptor_generation]
      omega
    have fits : (lineage.descriptor reached).generation ≤ u32Max := by
      rw [Lineage.descriptor_generation]
      omega
    obtain ⟨exact_iff, exactly⟩ := checkPinU32_exact build (.of (lineage.descriptor p)) fits typed
    rw [exactly (exact_iff.mpr ?_), checkPin_honest lineage positive pinned upTo]
    rintro ⟨_, _, chain, next, rest, split, _, reaches⟩
    have longer := congrArg List.length split
    rw [List.length_map, List.length_range', List.length_append, List.length_cons] at longer
    have start : (DescriptorPin.of (lineage.descriptor p)).generation = p := lineage.descriptor_generation p
    rw [start] at reaches
    omega

end

/-- A generation of the vault, with what the pin's hash is to be. -/
def numbered (generation : Nat) (prevHash : Hash32) : Descriptor where
  vaultId := ⟨.fill 16 1⟩
  generation := generation
  vaultPub := ⟨.fill 32 1⟩
  configPub := ⟨.fill 32 1⟩
  secretWriterPub := ⟨.fill 32 1⟩
  configWriterPub := ⟨.fill 32 1⟩
  prevHash := prevHash
  createdAt := 1

theorem pinChecked_iff_second :
    let _ := byteDigest 0
    PinChecked .checked ⟨1, ⟨.fill 32 0⟩⟩ (numbered 2 ⟨.fill 32 0⟩) [numbered 2 ⟨.fill 32 0⟩] ↔
      ¬ (1 < 2 ∧ 2 = u32Max ∧ Overruns ⟨1, ⟨.fill 32 0⟩⟩ [numbered 2 ⟨.fill 32 0⟩]) :=
  let _ := byteDigest 0
  have fits : (numbered 2 ⟨.fill 32 0⟩).generation ≤ u32Max := by decide
  have typed : ∀ next ∈ [numbered 2 ⟨.fill 32 0⟩], next.generation ≤ u32Max := by decide
  (pinChecked_iff .checked fits typed).1

/-- A server that serves the last generation twice stops a checked build, and makes an
unchecked one refuse a chain that is whole. -/
theorem last_generation_served_twice :
    let _ := byteDigest 0
    let pin : DescriptorPin := ⟨u32Max - 1, ⟨.fill 32 0⟩⟩
    let last := numbered u32Max ⟨.fill 32 0⟩
    (checkPinU32 .checked pin last [last, last]).outcome = none ∧ checkPin pin last [last] = .ok () ∧
      ∀ build, ¬ PinChecked build pin last [last, last] := by
  intro _ pin last
  refine ⟨by decide +kernel, by decide +kernel, fun build checked => ?_⟩
  have overflows : (checkPinU32 build pin last [last, last]).held = false := by
    cases build <;> decide +kernel
  rw [checked.held] at overflows
  cases overflows

end GalataVault.Client
