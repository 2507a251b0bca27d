import GalataVault.Proto.Lines
import GalataVault.Server.Isolation

/-!
# Preconditions and the signature that covers them

A signature covers an absent precondition and an empty one alike. The three handlers of
writes that take preconditions refuse every request that brings an empty one, before the
store is asked for anything but the record of a refusal. So of all requests that one
signature covers, those that are not refused are served alike.
-/

namespace GalataVault.Server

open Proto Backend Interaction

/-! ## Refusing -/

/-- Reading the clock and recording an event: all a refusal asks of its surroundings. -/
inductive Op.Records : {β : Type} → Op β → Prop
  | now : Records .now
  | record (pk : VaultPk) (event : AuditEvent) (now : Int) : Records (.write (.record pk event now))

def recording : Watch Op Unit where
  note _ _ _ := ()
  allowed _ op := op.Records

/-- Whatever it is answered, the handler ends in an error and asks for no more than the
record of it. -/
def Refuses {α : Type} (handler : Handler α) : Prop :=
  handler.Obeys recording () fun result _ => ∃ failure, result = .error failure

variable {α β : Type}

theorem refuses_fail (failure : CoreError) : Refuses (Program.fail failure : Handler α) := ⟨failure, rfl⟩

theorem refuses_error_bind {failure : CoreError} {next : β → Handler α} :
    Refuses (Handler.check (.error failure) >>= next) := ⟨failure, rfl⟩

/-- A check that fails refuses, and one that passes leaves it to what follows. -/
theorem refuses_check {checked : Except CoreError β} {next : β → Handler α} (after : ∀ value, Refuses (next value)) :
    Refuses (Handler.check checked >>= next) := by
  cases checked with
  | ok value => exact after value
  | error failure => exact refuses_error_bind

/-- A credential that is not enough is refused, and one that is leaves it to what
follows. -/
theorem refuses_require {caller : Caller} {need : Need} {action : AuditAction} {name : Option NameHmac}
    {next : Unit → Handler α} (after : Refuses (next ())) : Refuses (require caller need action name >>= next) := by
  unfold require
  split
  · exact after
  · exact ⟨.now, fun _ => ⟨.record _ _ _, fun _ => ⟨_, rfl⟩⟩⟩

/-! ## Writes with preconditions -/

/-- A write that takes preconditions, with the parameters of its path. -/
inductive GuardedWrite where
  | put (kind : RecordKind) (name : String)
  | delete (kind : RecordKind) (name : String)
  | putChildren

section

variable [Digests] [Ed25519] [Bodies] (policy : Policy) (caller : Caller)

/-- The handler of the write. -/
def GuardedWrite.serve (write : GuardedWrite) (request : CanonicalRequest) : Handler CoreResponse :=
  match write with
  | .put kind name => Server.put policy caller kind name request
  | .delete kind name => Server.delete policy caller kind name request
  | .putChildren => Server.putChildren policy caller request

/-- The handlers read the preconditions and the body of a request, and nothing else. -/
theorem GuardedWrite.serve_congr (write : GuardedWrite) {a b : CanonicalRequest} (ifMatch : a.ifMatch = b.ifMatch)
    (ifNoneMatch : a.ifNoneMatch = b.ifNoneMatch) (body : a.body = b.body) :
    write.serve policy caller a = write.serve policy caller b := by
  cases write with
  | put kind name => simp only [serve, Server.put, ifMatch, ifNoneMatch, body]
  | delete kind name => simp only [serve, Server.delete, ifMatch, ifNoneMatch, body]
  | putChildren => simp only [serve, Server.putChildren, ifMatch, ifNoneMatch, body]

omit [Digests] [Ed25519] [Bodies] in
/-- An empty value is no version. -/
theorem parseEtag_empty : parseEtag "" = .error (.invalid "If-Match must be a version number") := by decide

omit [Digests] [Ed25519] [Bodies] in
/-- No precondition comes of an empty value, whatever the other one is. -/
theorem precondition_empty {ifMatch ifNoneMatch : Option String} (empty : ifMatch = some "" ∨ ifNoneMatch = some "") :
    ∃ failure, precondition ifMatch ifNoneMatch = .error failure := by
  obtain rfl | rfl := empty
  · cases ifNoneMatch with
    | none => exact ⟨_, congrArg (Except.map Precondition.ifMatch) parseEtag_empty⟩
    | some value => exact ⟨_, rfl⟩
  · cases ifMatch with
    | none => exact ⟨_, rfl⟩
    | some value => exact ⟨_, rfl⟩

/-- A request with an empty precondition is refused by every one of them. -/
theorem GuardedWrite.refuses_empty (write : GuardedWrite) {request : CanonicalRequest}
    (empty : request.ifMatch = some "" ∨ request.ifNoneMatch = some "") :
    Refuses (write.serve policy caller request) := by
  obtain ⟨failure, refused⟩ := precondition_empty empty
  cases write with
  | put kind name =>
    apply refuses_check
    intro index
    apply refuses_require
    rw [refused]
    exact refuses_error_bind
  | delete kind name =>
    apply refuses_check
    intro index
    apply refuses_require
    -- An If-None-Match of any value is refused first, and then an empty If-Match.
    split
    · exact refuses_fail _
    · next absent =>
      obtain ifMatch | ifNoneMatch := empty
      · rw [ifMatch]
        simp only [parseEtag_empty]
        exact refuses_error_bind
      · simp [ifNoneMatch] at absent
  | putChildren =>
    apply refuses_require
    rw [refused]
    exact refuses_error_bind

end

/-- Values that are the same text, and not the same, are an absent one and an empty one. -/
theorem empty_of_getD {left right : Option String} (same : left.getD "" = right.getD "") (differ : left ≠ right) :
    left = some "" ∨ right = some "" := by
  cases left with
  | none =>
    cases right with
    | none => exact absurd rfl differ
    | some value => exact .inr (congrArg some same.symm)
  | some value =>
    cases right with
    | none => exact .inl (congrArg some same)
    | some other => exact absurd (congrArg some same) differ

/-- Equal signing inputs of requests without line feeds cover the same request, up to the
case of the method and to absent or empty preconditions; and unless one of the two is
refused, the handlers that take preconditions do the same for both. -/
theorem signature_binds_request [Digests] {p q : SigParams} {a b : CanonicalRequest} (free : a.signed.LineFree)
    (free' : b.signed.LineFree)
    (collisionFree : Digests.sha256 a.body = Digests.sha256 b.body → a.body = b.body)
    (same : p.signingInput a.signed = q.signingInput b.signed) :
    SameRequest p q a.signed b.signed ∧ a.body = b.body ∧
      ∀ [Ed25519] [Bodies] (policy : Policy) (caller : Caller) (write : GuardedWrite),
        write.serve policy caller a = write.serve policy caller b ∨ Refuses (write.serve policy caller a) ∨
          Refuses (write.serve policy caller b) := by
  have covered : SameRequest p q a.signed b.signed := sameRequest_of_signingInput free free' same
  have body : a.body = b.body := collisionFree covered.body
  refine ⟨covered, body, fun policy caller write => ?_⟩
  by_cases ifMatch : a.ifMatch = b.ifMatch
  · by_cases ifNoneMatch : a.ifNoneMatch = b.ifNoneMatch
    · exact .inl (write.serve_congr policy caller ifMatch ifNoneMatch body)
    · obtain empty | empty := empty_of_getD covered.ifNoneMatch ifNoneMatch
      · exact .inr (.inl (write.refuses_empty policy caller (.inr empty)))
      · exact .inr (.inr (write.refuses_empty policy caller (.inr empty)))
  · obtain empty | empty := empty_of_getD covered.ifMatch ifMatch
    · exact .inr (.inl (write.refuses_empty policy caller (.inl empty)))
    · exact .inr (.inr (write.refuses_empty policy caller (.inl empty)))

/-! ## One signature, stored and refused -/

/-- A handler by itself, nothing else between its operations. -/
def runAlone {σ : Type} [Digests] (env : Env σ) : Handler α → World σ → Except CoreError α × World σ
  | .done result, world => (result, world)
  | .perform op rest, world => runAlone env (rest (perform env op world).1) (perform env op world).2

/-- Every body is a children record of version one. -/
@[reducible] def blobs : Bodies := { oneByte with children := fun body => .ok ⟨1, ⟨body⟩, ⟨.fill 64 1⟩⟩ }

/-- The owner of the first vault. -/
def firstOwner : Caller where
  vault :=
    { pk := 1, vaultId := ⟨.fill 16 1⟩, ownerSignPub := ⟨.fill 32 1⟩, ownerBoxPub := ⟨.fill 32 1⟩,
      ownerBundle := ⟨⟨[1]⟩, ⟨.fill 64 1⟩⟩, generation := 1, revision := 1, createdAt := 1, lastActiveAt := 1,
      bytesUsed := 0, descriptor := ⟨⟨[1]⟩, ⟨.fill 64 1⟩⟩ }
  principal := .owner
  expiresAt := none

/-- The creation of the children record, with If-Match as given. -/
def childrenPut (ifMatch : Option String) : CanonicalRequest :=
  { ownerRequest "PUT" "/v1/vault/children" 1 1 with ifMatch := ifMatch, ifNoneMatch := some "*" }

theorem signature_binds_request_children :
    let _ := checksum
    let params : SigParams :=
      { actor := .owner, vaultId := ⟨.fill 16 1⟩, ts := 1, nonce := .fill 16 1, sig := ⟨.fill 64 1⟩ }
    SameRequest params params (childrenPut none).signed (childrenPut (some "")).signed :=
  let _ := checksum
  (signature_binds_request (a := childrenPut none) (b := childrenPut (some ""))
    ⟨by decide, by decide, by decide, by decide⟩ ⟨by decide, by decide, by decide, by decide⟩ (fun _ => rfl) rfl).1

/-- One signing input covers a request that creates the children record and one that is
refused. -/
theorem empty_precondition_is_refused :
    let _ := checksum
    let _ := trusting
    let _ := blobs
    let params : SigParams :=
      { actor := .owner, vaultId := ⟨.fill 16 1⟩, ts := 1, nonce := .fill 16 1, sig := ⟨.fill 64 1⟩ }
    let world : World Unit := step ⟨Db.empty, ()⟩ (.createVault (.ok ()) (.filled 1) 1)
    let stored := fun ifMatch =>
      Backend.children 1 (runAlone calm (putChildren .default firstOwner (childrenPut ifMatch)) world).2.db
    params.signingInput (childrenPut none).signed = params.signingInput (childrenPut (some "")).signed ∧
      (stored none).isSome = true ∧ stored (some "") = none := by
  intro _ _ _ params world stored
  exact ⟨rfl, by decide +kernel, by decide +kernel⟩

end GalataVault.Server
