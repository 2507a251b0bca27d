import GalataVault.Client.Rollbacks

/-!
# The versions a handle signs

A write is signed as the version after the last one of a history that the server
answered. Every entry of a history is verified, but the history is not compared with
the pins, and a pin is looked at only when the write has been answered. So a record is
signed as a version that is new to the handle exactly when the history that was
answered ends where the handle's own knowledge of the record does, or later.
-/

namespace GalataVault.Client

open Proto Interaction

/-! ## What happens in a run -/

/-- The record an operation sends, and the precondition it is sent under. -/
def HandleOp.sends : {β : Type} → HandleOp β → Option (WrittenRecord × Pre)
  | _, .ask (.write written pre) => some (written, pre)
  | _, _ => none

/-- The call that sends a record by an event, with the record and its precondition. -/
def sent (state : Threads) : ThreadEvent → Option (Nat × WrittenRecord × Pre)
  | .arrive _ => none
  | .advance call _ =>
    match state.flights[call]? with
    | some ⟨_, .perform op _⟩ => op.sends.map (call, ·)
    | _ => none

/-- The last version of the history that was answered; zero if it is empty. -/
def Seen.latest (seen : Seen) : Nat := ((seen.history.getD []).getLast?.map (·.version)).getD 0

/-- The precondition a call returned, and what was noted of it. -/
def returnedPre (state : Threads) (call : Nat) : Option (Seen × Pre) :=
  match state.flights[call]? with
  | some ⟨seen, .done (.ok (.pre pre))⟩ => some (seen, pre)
  | _ => none

/-- A put of a named record, or its delete, under a precondition. -/
def HandleCall.Writes (kind : RecordCode) (name : String) (pre : Pre) : HandleCall → Prop
  | .put putKind putName _ _ given _ => putKind = kind ∧ putName = name ∧ given = pre
  | .delete deleteKind deleteName version _ => deleteKind = kind ∧ deleteName = name ∧ .update version = pre
  | _ => False

section

variable [Crypto] [Digests] [Ed25519] [Unsealing] (handle : Handle) (view : View)

/-- In a run some event did something. -/
def Happened {α : Type} (what : Threads → ThreadEvent → Option α) (events : List ThreadEvent) (value : α) : Prop :=
  ∃ before event after, events = before ++ event :: after ∧
    what (runThreads handle ⟨.opened view, []⟩ before) event = some value

/-- A version of a record that the handle has read, listed or written in a run. -/
def AcceptedIn (events : List ThreadEvent) (kind : RecordCode) (index : NameHmac) (version : Nat) : Prop :=
  ∃ name, Happened handle view accepted events ⟨kind, name, index, version⟩

/-- A record that the handle has sent in a run. -/
def SentIn (events : List ThreadEvent) (written : WrittenRecord) : Prop :=
  ∃ call pre, Happened handle view sent events (call, written, pre)

/-- A call writes under a precondition that a call of `current` for the same record
returned, from the history noted of it. -/
def Obtained (events : List ThreadEvent) (call : Nat) (pre : Pre) (seen : Seen) : Prop :=
  ∃ kind name, ∃ asked : Nat, ∃ request, (arrivals events)[call]? = some request ∧ request.Writes kind name pre ∧
    (arrivals events)[asked]? = some (.current kind name) ∧
      returnedPre (runThreads handle ⟨.opened view, []⟩ events) asked = some (seen, pre)

/-! ## The version of a write -/

omit [Crypto] [Digests] [Ed25519] [Unsealing] in
theorem Pre.nextVersion_after (latest : Option Server.VersionMeta) :
    (Pre.after latest).nextVersion = (latest.map (·.version)).getD 0 + 1 := by
  cases latest with
  | none => rfl
  | some m =>
    change (if m.tombstone then Pre.revive m.version else Pre.update m.version).nextVersion = m.version + 1
    split <;> rfl

variable {handle view}

/-- A write is signed as the version its precondition implies. -/
theorem sent_version {events : List ThreadEvent} {event : ThreadEvent} {call : Nat} {written : WrittenRecord} {pre : Pre}
    (sends : sent (runThreads handle ⟨.opened view, []⟩ events) event = some (call, written, pre)) :
    written.version = pre.nextVersion := by
  cases event with
  | arrive request => cases sends
  | advance index answers =>
    simp only [sent] at sends
    split at sends
    · next seen β op rest here =>
      obtain ⟨_, sends, same⟩ := Option.map_eq_some_iff.mp sends
      cases same
      have meets := threads_meet handle (.initial (.opened view)) events
      obtain ⟨request, _, _, _, allowed⟩ := meets.allowed ⟨rest, here⟩
      have signs : request.Signs written pre := by
        cases op with
        | ask query =>
          cases query with
          | write sentRecord sentPre =>
            cases sends
            exact allowed
          | _ => cases sends
        | _ => cases sends
      cases request with
      | put kind name format body given signing => exact signs.2.2
      | delete kind name version signing => exact signs.2.2
      | get | list | versions | current | refresh | setPins => exact signs.elim
    · cases sends

/-- A precondition that was obtained implies the version after the last of its history. -/
theorem obtained_nextVersion {events : List ThreadEvent} {call : Nat} {pre : Pre} {seen : Seen}
    (obtained : Obtained handle view events call pre seen) : pre.nextVersion = seen.latest + 1 := by
  obtain ⟨kind, name, asked, _, _, _, asks, returned⟩ := obtained
  have meets := threads_meet handle (.initial (.opened view)) events
  have found : (runThreads handle ⟨.opened view, []⟩ events).flights[asked]? = some ⟨seen, .done (.ok (.pre pre))⟩ := by
    unfold returnedPre at returned
    split at returned
    · next here =>
      cases returned
      exact here
    · cases returned
  obtain ⟨_, _, ends⟩ := meets.ends found asks
  obtain ⟨list, history, rfl⟩ := ends kind name pre rfl rfl
  rw [Pre.nextVersion_after, Seen.latest, history]
  rfl

variable (handle view)

end

/-! ## Two writes of one version -/

/-- A server that takes every write and answers a history that ends at one version. -/
def endingAt (version : Nat) : Answers :=
  { keptAnswers 1 with
    versions := fun _ _ => ((keptMeta 1 version).map ([·])).mapError fun _ => .transport
    write := fun written _ => .ok written.version }

def puttingSecret (body : List UInt8) (version : Nat) : HandleCall :=
  .put .secret "A" .text body (.update version) ⟨⟨.fill 24 1, .fill 32 1⟩, 1⟩

/-- The secret "A" is put over version 1, and `current` is asked for it; then it is put
again under the precondition that was answered, up to where the record is sent. -/
def puttingTwice (answered : Nat) : List ThreadEvent :=
  .arrive (puttingSecret [1] 1) :: List.replicate 3 (.advance 0 (endingAt answered)) ++
    .arrive (.current .secret "A") :: List.replicate 2 (.advance 1 (endingAt answered)) ++
    [.arrive (puttingSecret [2] answered), .advance 2 (endingAt answered)]

/-- The event by which a call sends its record. -/
def sending (call : Nat) : ThreadEvent := .advance call (endingAt 1)

end GalataVault.Client
