import GalataVault.Client.Opening

/-!
# Building a batch

From records that the current generation's writers wrote, and tokens whose scopes the
client knows, a batch can always be built. Each version is carried over: opened under the
current descriptor, and written anew under the next one, where it opens to the same
record. Every bundle of the batch is signed for the new generation.

A version that does not verify and open under the current descriptor is in no batch.
-/

namespace GalataVault.Client

open Proto Relational

/-! ## Lists of checked steps -/

/-- A step that succeeds on every element at every place succeeds on the list. -/
theorem mapM_zipIdx_ok {ε α β : Type} {f : α × Nat → Except ε β} {R : α → β → Prop} {l : List α}
    (each : ∀ a ∈ l, ∀ i, ∃ b, f (a, i) = .ok b ∧ R a b) (start : Nat) :
    ∃ out, (l.zipIdx start).mapM f = .ok out ∧ List.Forall₂ R l out := by
  induction l generalizing start with
  | nil => exact ⟨[], rfl, .nil⟩
  | cons a l inductionHypothesis =>
    obtain ⟨b, first, related⟩ := each a List.mem_cons_self start
    obtain ⟨out, rest, others⟩ := inductionHypothesis (fun a member => each a (List.mem_cons_of_mem _ member)) (start + 1)
    refine ⟨b :: out, ?_, .cons related others⟩
    rw [List.zipIdx_cons, List.mapM_cons, first, rest]
    rfl

/-- A list whose steps all succeeded has no element on which the step fails. -/
theorem mapM_zipIdx_each {ε α β : Type} {f : α × Nat → Except ε β} {l : List α} {out : List β} {start : Nat}
    (ran : (l.zipIdx start).mapM f = .ok out) : ∀ a ∈ l, ∃ i b, f (a, i) = .ok b := by
  induction l generalizing start out with
  | nil =>
    intro a member
    cases member
  | cons a l inductionHypothesis =>
    rw [List.zipIdx_cons, List.mapM_cons] at ran
    simp only [outcome_bind_ok, outcome_pure_ok] at ran
    obtain ⟨b, first, others, rest, rfl⟩ := ran
    intro other member
    rcases List.mem_cons.mp member with rfl | later
    · exact ⟨start, b, first⟩
    · exact inductionHypothesis rest other later

/-- Each element of a list is related to something of the other. -/
theorem forall₂_left {α β : Type} {R : α → β → Prop} {l : List α} {out : List β} (related : List.Forall₂ R l out) :
    ∀ a ∈ l, ∃ b ∈ out, R a b := by
  induction related with
  | nil =>
    intro a member
    cases member
  | cons head _ inductionHypothesis =>
    intro a member
    rcases List.mem_cons.mp member with rfl | later
    · exact ⟨_, List.mem_cons_self, head⟩
    · obtain ⟨b, member, found⟩ := inductionHypothesis a later
      exact ⟨b, List.mem_cons_of_mem _ member, found⟩

theorem forall₂_right {α β : Type} {R : α → β → Prop} {l : List α} {out : List β} (related : List.Forall₂ R l out) :
    ∀ b ∈ out, ∃ a ∈ l, R a b :=
  forall₂_left (show List.Forall₂ (flip R) out l from related.flip)

section

variable [Crypto] [Digests] [Ed25519]

/-! ## Versions -/

/-- A version the current generation's writer of its kind wrote. -/
def Written (d : Descriptor) (bundle : FullBundle) (kind : RecordCode) (v : SecretVersion) : Prop :=
  ∃ draw r rec, r.Fits kind ∧ (bundle.writer d kind).write draw kind r = .ok rec ∧ v = rec.served

/-- Verify and open one version of a kind, and write it anew. -/
def rotateRecord (d : Descriptor) (current : FullBundle) (w : Writer) (draw : Draw) :
    RecordCode → SecretVersion → Except SealError RotatedVersion
  | .secret, v => rotateSecret d current w draw v
  | .config, v => rotateConfig d current w draw v

/-- A version of the old generation, and the entry of the batch that carries it over. -/
structure Carried (d d' : Descriptor) (current next : FullBundle) (kind : RecordCode) (v : SecretVersion)
    (s : RotatedVersion) : Prop where
  carried : ∃ r rec, openRecord d current kind v = .ok r ∧ r.version = v.version ∧ r.writtenAt = v.writtenAt ∧
    r.value.isNone = v.valueCt.isNone ∧ v.nameHmac = current.nameKey.index kind r.name ∧
    s = rotatedVersion v rec ∧ Sealed d' next kind r rec

variable {d d' : Descriptor} {current next : FullBundle} {kind : RecordCode}

theorem rotateRecord_of_open {w : Writer} {draw : Draw} {v : SecretVersion} {r : OpenedRecord} {rec : WrittenRecord}
    (opened : openRecord d current kind v = .ok r) (version : r.version = v.version) (time : r.writtenAt = v.writtenAt)
    (wrote : w.write draw kind r = .ok rec) : rotateRecord d current w draw kind v = .ok (rotatedVersion v rec) := by
  obtain ⟨name, _, _, format, value⟩ := r
  subst version time
  cases kind with
  | secret =>
    change openSecret d current.nameKey current.vaultSecret v = _ at opened
    rw [rotateRecord, rotateSecret, opened]
    cases value with
    | none =>
      change w.tombstone draw .secret name v.version v.writtenAt = .ok rec at wrote
      change (w.tombstone draw .secret name v.version v.writtenAt >>= _) = _
      rw [wrote]
      rfl
    | some value =>
      change w.secret draw name value v.version v.writtenAt = .ok rec at wrote
      change (w.secret draw name value v.version v.writtenAt >>= _) = _
      rw [wrote]
      rfl
  | config =>
    change openConfigRecord d current.nameKey current.configSecret v = _ at opened
    rw [rotateRecord, rotateConfig, opened]
    cases value with
    | none =>
      change w.tombstone draw .config name v.version v.writtenAt = .ok rec at wrote
      change (w.tombstone draw .config name v.version v.writtenAt >>= _) = _
      rw [wrote]
      rfl
    | some value =>
      cases format with
      | none =>
        change w.tombstone draw .config name v.version v.writtenAt = .ok rec at wrote
        change (w.tombstone draw .config name v.version v.writtenAt >>= _) = _
        rw [wrote]
        rfl
      | some format =>
        change w.config draw name format value v.version v.writtenAt = .ok rec at wrote
        change (w.config draw name format value v.version v.writtenAt >>= _) = _
        rw [wrote]
        rfl

/-- A version its generation's writer wrote can be carried over. -/
theorem Written.rotates (correct : Correct) {v : SecretVersion} (written : Written d current kind v)
    (names : current.Names d) (generation : d.generation < 2 ^ 32) (names' : next.Names d')
    (generation' : d'.generation < 2 ^ 32) (draw : Draw) :
    ∃ s, rotateRecord d current (next.writer d' kind) draw kind v = .ok s ∧ Carried d d' current next kind v s := by
  obtain ⟨_, r, old, fits, wrote, rfl⟩ := written
  have before := sealed_of_write correct fits wrote names generation
  obtain ⟨rec, again, sealed⟩ := write_again correct fits wrote names' generation' draw
  have value : r.value.isNone = old.served.valueCt.isNone := by
    rw [WrittenRecord.served, Option.isNone_map, before.tombstone]
  exact ⟨_, rotateRecord_of_open before.opens before.numbered.symm before.written.symm again,
    ⟨r, rec, before.opens, before.numbered.symm, before.written.symm, value, before.indexed, rfl, sealed⟩⟩

/-- What can be carried over at all verifies and opens. -/
theorem opens_of_rotateRecord {w : Writer} {draw : Draw} {v : SecretVersion} {s : RotatedVersion}
    (rotated : rotateRecord d current w draw kind v = .ok s) : ∃ r, openRecord d current kind v = .ok r := by
  cases kind with
  | secret =>
    simp only [rotateRecord, rotateSecret, outcome_bind_ok] at rotated
    obtain ⟨r, opened, _⟩ := rotated
    exact ⟨r, opened⟩
  | config =>
    simp only [rotateRecord, rotateConfig, outcome_bind_ok] at rotated
    obtain ⟨r, opened, _⟩ := rotated
    exact ⟨r, opened⟩

/-! ## Bundles -/

omit [Crypto] [Digests] [Ed25519] in
theorem encodeFor_short (bundle : FullBundle) (scope : Scope) (vaultId : VaultId) (tokenId : TokenId) :
    (bundle.encodeFor scope vaultId tokenId).length < 2 ^ 32 := by
  cases scope <;> simp [FullBundle.encodeFor, FullBundle.forScope, beBytes_length]

theorem sealForScope_verifies (correct : Correct) (owner : OwnerKeys) (draw : FixedBytes 32) (holder : Key32)
    (tokenId : TokenId) (scope : Scope) (full : FullBundle) :
    ∃ bundle, sealForScope owner draw holder tokenId scope full = .ok bundle ∧
      bundle.verify owner.signPub owner.vaultId tokenId scope.code full.generation = .ok () := by
  obtain ⟨sealedBytes, boxed⟩ :=
    correct.boxes draw holder _ (encodeFor_short full scope owner.vaultId tokenId)
  refine ⟨⟨⟨sealedBytes⟩, owner.signBundle tokenId scope.code full.generation sealedBytes⟩, ?_, ?_⟩
  · rw [sealForScope, sealBytes, boxed]
    rfl
  · exact if_pos (correct.signs _ _)

theorem sealOwnerBundle_verifies (correct : Correct) (owner : OwnerKeys) (draw : FixedBytes 32) (full : FullBundle) :
    ∃ bundle, sealOwnerBundle owner draw full = .ok bundle ∧
      bundle.verify owner.signPub owner.vaultId ownerTokenId ownerScopeCode full.generation = .ok () := by
  obtain ⟨sealedBytes, boxed⟩ :=
    correct.boxes draw owner.boxPub _ (encodeFor_short full .admin owner.vaultId ownerTokenId)
  refine ⟨⟨⟨sealedBytes⟩, owner.signBundle ownerTokenId ownerScopeCode full.generation sealedBytes⟩, ?_, ?_⟩
  · rw [sealOwnerBundle, sealBytes, boxed]
    rfl
  · exact if_pos (correct.signs _ _)

/-- A token of the list, and its bundle in a batch. -/
structure Resealed (owner : OwnerKeys) (generation : Nat) (t : ListedToken) (b : ResealedBundle) : Prop where
  same : b.tokenId = t.tokenId
  verifies : ∃ scope, t.scope = .known scope ∧
    b.bundle.verify owner.signPub owner.vaultId t.tokenId scope.code generation = .ok ()

theorem reseal_known (correct : Correct) (owner : OwnerKeys) (next : FullBundle) (draw : FixedBytes 32)
    {t : ListedToken} (known : t.scope.isKnown = true) :
    ∃ b, reseal owner next draw t = .ok b ∧ Resealed owner next.generation t b := by
  obtain ⟨tokenId, scope, boxPub⟩ := t
  cases scope with
  | unknown name => cases known
  | known scope =>
    obtain ⟨bundle, given, verifies⟩ := sealForScope_verifies correct owner draw boxPub tokenId scope next
    refine ⟨⟨tokenId, bundle⟩, ?_, rfl, scope, rfl, verifies⟩
    change ((sealForScope owner draw boxPub tokenId scope next).mapError _ >>= _) = _
    rw [given]
    rfl

/-! ## The batch -/

/-- What a built rotation is: every field of the batch, each version carried over and
each bundle signed. -/
structure Built (owner : OwnerKeys) (status : RotationStatus) (tokens : List ListedToken) (d : Descriptor)
    (current : FullBundle) (given : RecordCode → List SecretVersion) (revoke : List TokenId) (now : Int)
    (rotation : Rotation) : Prop where
  generation : rotation.newBundle.generation = status.generation + 1
  descriptor : rotation.newDescriptor = rotation.newBundle.descriptor owner.vaultId d.hash now
  fromGeneration : rotation.request.fromGeneration = status.generation
  fromRevision : rotation.request.fromRevision = status.revision
  revokes : rotation.request.revoke = revoke
  signed : rotation.request.descriptor = owner.signDescriptor rotation.newDescriptor
  ownerBundle : rotation.request.ownerBundle.verify owner.signPub owner.vaultId ownerTokenId ownerScopeCode
    (status.generation + 1) = .ok ()
  resealed : List.Forall₂ (Resealed owner (status.generation + 1)) (tokens.filter fun t => t.tokenId ∉ revoke)
    rotation.request.tokens
  secrets : List.Forall₂ (Carried d rotation.newDescriptor current rotation.newBundle .secret) (given .secret)
    rotation.request.secrets
  configs : List.Forall₂ (Carried d rotation.newDescriptor current rotation.newBundle .config) (given .config)
    rotation.request.configs

theorem buildRotation_of_written (correct : Correct) (owner : OwnerKeys) (status : RotationStatus)
    (tokens : List ListedToken) (d : Descriptor) (current : FullBundle) (given : RecordCode → List SecretVersion)
    (revoke : List TokenId) (now : Int) (draws : Draws) (held : current.generation = status.generation)
    (described : d.generation = status.generation) (below : status.generation + 1 < 2 ^ 32) (names : current.Names d)
    (visible : status.tokens = some tokens)
    (known : ∀ t ∈ tokens, t.tokenId ∉ revoke → t.scope.isKnown = true)
    (listed : ∀ id ∈ revoke, ∃ t ∈ tokens, t.tokenId = id)
    (written : ∀ kind, ∀ v ∈ given kind, Written d current kind v) :
    ∃ rotation, buildRotation owner status d current (given .secret) (given .config) revoke now draws = .ok rotation ∧
      Built owner status tokens d current given revoke now rotation := by
  let next := FullBundle.generate draws.keys (status.generation + 1)
  let nextDescriptor := next.descriptor owner.vaultId d.hash now
  have rotates (kind : RecordCode) (drawn : Nat → Draw) : ∀ v ∈ given kind, ∀ i, ∃ s,
      rotateRecord d current (next.writer nextDescriptor kind) (drawn i) kind v = .ok s ∧
        Carried d nextDescriptor current next kind v s :=
    fun v member i => (written kind v member).rotates correct names (by omega) (next.names_descriptor _ _ _) below _
  obtain ⟨rotatedSecrets, ranSecrets, secrets⟩ := mapM_zipIdx_ok (f := fun v => rotateRecord d current
    (next.writer nextDescriptor .secret) (draws.secret v.2) .secret v.1) (rotates .secret draws.secret) 0
  obtain ⟨rotatedConfigs, ranConfigs, configs⟩ := mapM_zipIdx_ok (f := fun v => rotateRecord d current
    (next.writer nextDescriptor .config) (draws.config v.2) .config v.1) (rotates .config draws.config) 0
  obtain ⟨resealed, ranTokens, bundles⟩ := mapM_zipIdx_ok (f := fun t => reseal owner next (draws.token t.2) t.1)
    (R := Resealed owner (status.generation + 1)) (l := tokens.filter fun t => t.tokenId ∉ revoke)
    (fun t member i => by
      obtain ⟨present, survives⟩ := List.mem_filter.mp member
      exact reseal_known correct owner next _ (known t present (of_decide_eq_true survives))) 0
  obtain ⟨ownerBundle, sealedOwner, ownerVerifies⟩ := sealOwnerBundle_verifies correct owner draws.owner next
  refine ⟨⟨⟨status.generation, status.revision, owner.signDescriptor nextDescriptor, ownerBundle, rotatedSecrets,
    rotatedConfigs, resealed, revoke⟩, next, nextDescriptor⟩, ?_, ⟨rfl, rfl, rfl, rfl, rfl, rfl, ownerVerifies,
    bundles, secrets, configs⟩⟩
  have unknown : (tokens.filter fun t => t.tokenId ∉ revoke).find? (fun t => !t.scope.isKnown) = none := by
    rw [List.find?_eq_none]
    intro t member
    obtain ⟨present, survives⟩ := List.mem_filter.mp member
    simp [known t present (of_decide_eq_true survives)]
  have absent : revoke.find? (fun id => !tokens.any fun t => t.tokenId = id) = none := by
    rw [List.find?_eq_none]
    intro id member
    obtain ⟨t, present, same⟩ := listed id member
    simpa using ⟨t, present, same⟩
  unfold buildRotation
  rw [if_neg (by rw [held, described]; simp), visible]
  dsimp only
  rw [unknown, absent]
  change (((given .secret).zipIdx.mapM fun v => rotateRecord d current (next.writer nextDescriptor .secret)
    (draws.secret v.2) .secret v.1) >>= _) = _
  rw [ranSecrets]
  change (((given .config).zipIdx.mapM fun v => rotateRecord d current (next.writer nextDescriptor .config)
    (draws.config v.2) .config v.1) >>= _) = _
  rw [ranConfigs]
  change (((tokens.filter fun t => t.tokenId ∉ revoke).zipIdx.mapM fun t =>
    reseal owner next (draws.token t.2) t.1) >>= _) = _
  rw [ranTokens]
  change ((sealOwnerBundle owner draws.owner next).mapError _ >>= _) = _
  rw [sealedOwner]
  rfl

/-- What a batch takes from its arguments as it is. -/
theorem buildRotation_ok {owner : OwnerKeys} {status : RotationStatus} {descriptor : Descriptor}
    {current : FullBundle} {secrets configs : List SecretVersion} {revoke : List TokenId} {now : Int} {draws : Draws}
    {rotation : Rotation}
    (built : buildRotation owner status descriptor current secrets configs revoke now draws = .ok rotation) :
    rotation.newBundle = FullBundle.generate draws.keys (status.generation + 1) ∧
      rotation.request.revoke = revoke := by
  unfold buildRotation at built
  split at built
  · cases built
  · split at built
    · cases built
    · dsimp only at built
      split at built
      · cases built
      · split at built
        · cases built
        · simp only [outcome_bind_ok, outcome_pure_ok] at built
          obtain ⟨_, _, _, _, _, _, _, _, rfl⟩ := built
          exact ⟨rfl, rfl⟩

/-- A version that does not verify and open under the descriptor is in no batch. -/
theorem opens_of_built {owner : OwnerKeys} {status : RotationStatus} {secrets configs : List SecretVersion}
    {revoke : List TokenId} {now : Int} {draws : Draws} {rotation : Rotation}
    (built : buildRotation owner status d current secrets configs revoke now draws = .ok rotation) :
    (∀ v ∈ secrets, ∃ r, openRecord d current .secret v = .ok r) ∧
      ∀ v ∈ configs, ∃ r, openRecord d current .config v = .ok r := by
  unfold buildRotation at built
  split at built
  · cases built
  · split at built
    · cases built
    · dsimp only at built
      split at built
      · cases built
      · split at built
        · cases built
        · simp only [outcome_bind_ok] at built
          obtain ⟨_, first, _, second, _⟩ := built
          constructor
          · intro v member
            obtain ⟨i, s, rotated⟩ := mapM_zipIdx_each first v member
            exact opens_of_rotateRecord (show rotateRecord d current _ _ .secret v = .ok s from rotated)
          · intro v member
            obtain ⟨i, s, rotated⟩ := mapM_zipIdx_each second v member
            exact opens_of_rotateRecord (show rotateRecord d current _ _ .config v = .ok s from rotated)

end

end GalataVault.Client
