import GalataVault.Backend.Spending
import GalataVault.Server.Conduct

/-!
# Replayed requests

A request's nonce is spent after its signature verified, at a reading of the clock of
its own, and remembered until ten minutes after its timestamp. So a vault id and a
nonce are accepted again only once the clock is past that: a second request must
carry a later timestamp to be within the skew window then.

The window is checked at one reading of the clock and the nonce is spent at another.
A request that waits between the two may be spent when its timestamp has long left
the window, and what was accepted before may be forgotten by then.
-/

namespace GalataVault.Server

open Proto Backend Interaction

section

variable {σ : Type}

/-- The time at which an event happens. -/
def eventTime : Event CanonicalRequest (Env σ) → Option Int
  | .arrive _ => none
  | .advance _ env => some env.now

/-- The times of a run's events, in order. -/
def times (events : List (Event CanonicalRequest (Env σ))) : List Int := events.filterMap eventTime

/-- Every reading a request has is at or before every later time. -/
def ReadBefore (later : List Int) (flight : Serving) : Prop :=
  ∀ reading ∈ flight.noted.readings, ∀ now ∈ later, reading ≤ now

theorem ReadBefore.weaken {first later : List Int} {flight : Serving} (before : ReadBefore (first ++ later) flight) :
    ReadBefore later flight := fun reading read now member => before reading read now (List.mem_append_right _ member)

/-- A nonce accepted with this expiry is remembered, or every later time is past it. -/
def Remembered (later : List Int) (id : List UInt8) (expiresAt : Int) (db : Db) : Prop :=
  db.spent.find? (.nonce, id) = some ⟨.nonce, id, expiresAt⟩ ∨ ∀ now ∈ later, expiresAt < now

variable [Digests] [Ed25519] [Bodies] (policy : Policy)

/-- The request whose nonce an event spends. -/
def accepts (state : Requests σ) : Event CanonicalRequest (Env σ) → Option Nat
  | .arrive _ => none
  | .advance index env =>
    match state.flights[index]? with
    | some ⟨_, .perform op _⟩ => if op.spendsNonce (perform env op state.world).1 then some index else none
    | _ => none

/-! ## Readings and times -/

variable {policy} {requests : List CanonicalRequest} {state : Requests σ} {later : List Int}

omit [Ed25519] [Bodies] in
/-- An operation's reading of the clock is the time of its event. -/
theorem readBefore_after {β : Type} {noted : Noted} {env : Env σ} {op : Op β} {rest next : Handler CoreResponse}
    (world : World σ) (before : ReadBefore (env.now :: later) ⟨noted, rest⟩)
    (ordered : (env.now :: later).Pairwise (· ≤ ·)) :
    ReadBefore later ⟨noted.after op (perform env op world).1, next⟩ := by
  intro reading read now member
  cases op with
  | now =>
    rcases List.mem_cons.mp read with rfl | old
    · exact List.rel_of_pairwise_cons ordered member
    · exact before reading old now (List.mem_cons_of_mem _ member)
  | read | findVault | write => exact before reading read now (List.mem_cons_of_mem _ member)

theorem step_meets {event : Event CanonicalRequest (Env σ)}
    (meets : Meets (core policy σ) permissions (ReadBefore (times [event] ++ later)) requests state)
    (ordered : (times [event] ++ later).Pairwise (· ≤ ·)) :
    Meets (core policy σ) permissions (ReadBefore later) (requests ++ arrivals [event])
      (Interaction.step (core policy σ) state event) := by
  refine meets.step event ?_ ?_ fun flight _ before => ReadBefore.weaken before
  · rintro request rfl
    refine ⟨?_, core_starts policy request⟩
    intro reading read
    cases read
  · rintro index env β noted op rest rfl _ before
    exact readBefore_after state.world before ordered

omit [Digests] [Ed25519] [Bodies] in
theorem times_append (events more : List (Event CanonicalRequest (Env σ))) :
    times (events ++ more) = times events ++ times more := List.filterMap_append

omit [Digests] [Ed25519] [Bodies] in
theorem times_cons (event : Event CanonicalRequest (Env σ)) (events : List (Event CanonicalRequest (Env σ))) :
    times (event :: events) = times [event] ++ times events := times_append [event] events

/-- At every moment of a run, each request keeps to its permissions, and has read no
time later than those to come. -/
theorem run_meets {events : List (Event CanonicalRequest (Env σ))}
    (meets : Meets (core policy σ) permissions (ReadBefore (times events ++ later)) requests state)
    (ordered : (times events ++ later).Pairwise (· ≤ ·)) :
    Meets (core policy σ) permissions (ReadBefore later) (requests ++ arrivals events)
      (Machine.run (Interaction.step (core policy σ)) state events) := by
  induction events generalizing requests state with
  | nil =>
    rw [show arrivals ([] : List (Event CanonicalRequest (Env σ))) = [] from rfl, List.append_nil]
    exact meets
  | cons event events inductionHypothesis =>
    rw [times_cons, List.append_assoc] at meets ordered
    have rest := inductionHypothesis (step_meets meets ordered) (List.pairwise_append.mp ordered).2.1
    rw [List.append_assoc, ← arrivals_cons] at rest
    exact rest

/-! ## What is remembered -/

/-- A remembered nonce stays remembered, until the clock is past its expiry. -/
theorem step_remembered {event : Event CanonicalRequest (Env σ)} {id : List UInt8} {expiresAt : Int}
    (meets : Meets (core policy σ) permissions (ReadBefore (times [event] ++ later)) requests state)
    (remembered : Remembered (times [event] ++ later) id expiresAt state.world.db) :
    Remembered later id expiresAt (Interaction.step (core policy σ) state event).world.db := by
  rcases remembered with found | past
  case inr => exact .inr fun now member => past now (List.mem_append_right _ member)
  cases event with
  | arrive request => exact .inl found
  | advance index env =>
    simp only [Interaction.step, Interaction.advance]
    split
    · next noted β op rest here =>
      cases op with
      | now | read | findVault => exact .inl found
      | write call =>
        change Remembered later id expiresAt (Backend.step state.world (call.call env)).db
        cases call with
        | spend kind other otherExpiry now =>
          obtain ⟨request, _, _, before, allowed⟩ := meets.allowed ⟨rest, here⟩
          have read : now ∈ noted.readings := by
            rcases allowed with opening | ⟨_, _, impossible⟩
            · cases kind with
              | nonce => exact opening.read
              | challenge => exact opening
            · exact impossible.elim
          by_cases expired : expiresAt < now
          · right
            intro time member
            have := before now read time (List.mem_append_right _ member)
            omega
          · left
            exact spend_keeps found (Int.not_lt.mp expired)
        | createVault | touch | registerToken | revokeTokens | putRecord | deleteRecord | putChildren | record
        | applyRotation | deleteVault =>
          left
          rw [step_spent_same state.world _ fun _ _ _ _ _ same => by cases same]
          exact found
    · exact .inl found

theorem run_remembered {events : List (Event CanonicalRequest (Env σ))} {id : List UInt8} {expiresAt : Int}
    (meets : Meets (core policy σ) permissions (ReadBefore (times events ++ later)) requests state)
    (remembered : Remembered (times events ++ later) id expiresAt state.world.db)
    (ordered : (times events ++ later).Pairwise (· ≤ ·)) :
    Remembered later id expiresAt (Machine.run (Interaction.step (core policy σ)) state events).world.db := by
  induction events generalizing requests state with
  | nil => exact remembered
  | cons event events inductionHypothesis =>
    rw [times_cons, List.append_assoc] at meets remembered ordered
    exact inductionHypothesis (step_meets meets ordered) (step_remembered meets remembered)
      (List.pairwise_append.mp ordered).2.1

/-! ## Acceptances -/

omit [Digests] [Ed25519] [Bodies] in
theorem spendsNonce_cases {β : Type} {op : Op β} {answer : β} (spends : op.spendsNonce answer = true) :
    ∃ id expiresAt now, ∃ same : β = Except StoreError Unit, HEq op (Op.write (.spend .nonce id expiresAt now)) ∧
      ∃ value, same ▸ answer = .ok value := by
  cases op with
  | now | read | findVault => cases spends
  | write call =>
    cases call with
    | spend kind id expiresAt now =>
      cases kind with
      | challenge => cases spends
      | nonce =>
        cases answer with
        | error failure => cases spends
        | ok value => exact ⟨id, expiresAt, now, rfl, HEq.rfl, value, rfl⟩
    | createVault | touch | registerToken | revokeTokens | putRecord | deleteRecord | putChildren | record
    | applyRotation | deleteVault => cases spends

/-- What an acceptance is: the request's nonce was spent, with the expiry its
timestamp gives, at a reading of the clock no later than the event. -/
theorem accepts_cases {event : Event CanonicalRequest (Env σ)} {index : Nat} {request : CanonicalRequest}
    {params : SigParams} (meets : Meets (core policy σ) permissions (ReadBefore (times [event] ++ later)) requests state)
    (accepted : accepts state event = some index) (asked : requests[index]? = some request)
    (authorized : request.authorization = some params) :
    ∃ env now, event = .advance index env ∧ now ≤ env.now ∧
      (Interaction.step (core policy σ) state event).world.db.spent.find? (.nonce, nonceId params) =
        some ⟨.nonce, nonceId params, params.ts + 2 * maxSkewSecs⟩ ∧
      ∀ row, state.world.db.spent.find? (.nonce, nonceId params) = some row → row.expiresAt < now := by
  cases event with
  | arrive _ => cases accepted
  | advance at_index env =>
    simp only [accepts] at accepted
    split at accepted
    · next noted β op rest here =>
      split at accepted
      · next spends =>
        obtain rfl := Option.some.inj accepted
        have stepped : (Interaction.step (core policy σ) state (.advance at_index env)).world =
            (perform env op state.world).2 := by
          simp only [Interaction.step, Interaction.advance, here]
          rfl
        obtain ⟨other, _, asked', before, allowed⟩ := meets.allowed ⟨rest, here⟩
        obtain rfl := Option.some.inj (asked'.symm.trans asked)
        rw [stepped]
        obtain ⟨id, expiresAt, now, rfl, same, value, answered⟩ := spendsNonce_cases spends
        obtain rfl := eq_of_heq same
        have opening : SpendsNonce other noted id expiresAt now := by
          rcases allowed with opening | ⟨_, _, impossible⟩
          · exact opening
          · exact impossible.elim
        obtain ⟨params', _, _, authorized', rfl, rfl, _⟩ := opening.signed
        obtain rfl := Option.some.inj (authorized'.symm.trans authorized)
        have spent := spend_accepted (answered : (Backend.spend _ _ _ _ _ _).1 = _)
        exact ⟨env, now, rfl, before now opening.read env.now (List.mem_cons_self ..), spent.1, spent.2⟩
      · cases accepted
    · cases accepted

end

/-! ## Requests accepted twice -/

/-- What a request meets at a given time, from a disk and a journal that refuse
nothing. -/
def calmAt (now : Int) : Env Unit := { calm with now := now }

/-- The owner's status request, with its timestamp. -/
def statusAt (ts : Int) : CanonicalRequest :=
  { ownerRequest "GET" "/v1/vault" 1 2 with
    authorization := some
      { actor := .owner, vaultId := (newcomer 1).vaultId, ts := ts, nonce := .fill 16 2, sig := ⟨.fill 64 1⟩ } }

/-- A vault is created and its owner's status request arrives twice, at time 100. The
second copy is checked at time 400 and waits; the first is then read up to its
spending. -/
def copyWaits : List (Event CanonicalRequest (Env Unit)) :=
  [.arrive (ownerRequest "POST" "/v1/vaults" 1 1)] ++ List.replicate 4 (.advance 0 (calmAt 100)) ++
    [.arrive (statusAt 100), .arrive (statusAt 100)] ++ List.replicate 2 (.advance 2 (calmAt 400)) ++
    List.replicate 3 (.advance 1 (calmAt 400))

/-- A vault is created and its owner's status request is read up to its spending. -/
def nonceSpent : List (Event CanonicalRequest (Env Unit)) :=
  [.arrive (ownerRequest "POST" "/v1/vaults" 1 1)] ++ List.replicate 4 (.advance 0 (calmAt 100)) ++
    [.arrive (statusAt 100)] ++ List.replicate 3 (.advance 1 (calmAt 100))

/-- The owner uses the nonce again with a later timestamp. -/
def nonceAgain : List (Event CanonicalRequest (Env Unit)) :=
  [.arrive (statusAt 1000)] ++ List.replicate 3 (.advance 2 (calmAt 1000))

end GalataVault.Server
