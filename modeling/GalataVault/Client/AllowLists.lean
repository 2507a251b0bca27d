import GalataVault.Backend.Rotations
import GalataVault.Backend.Runs
import GalataVault.Client.Batches
import GalataVault.Server.Core

/-!
# Allow-lists across a rotation

A read token's allow-list names secrets by their indexes, and an index is computed
under the generation's name key. A rotation draws a new name key and moves every record
to its new index; the lists stay as they were registered, since a batch has no field
for them and resealing a token writes its bundle and generation only.

So a token that survives a rotation keeps its list and loses what the list named.
-/

namespace GalataVault.Client

open Proto Backend Server Relational

section

variable [Crypto]

/-- The names, of those given, whose secrets the server lets a caller read. -/
def readableNames (nameKey : NameKey) (names : Set String) (caller : Caller) : Set String :=
  {name | name ∈ names ∧ caller.allowsName (nameKey.index .secret name) = true}

theorem readableNames_listed {row : TokenRow} {list : List NameHmac} {caller : Caller} (nameKey : NameKey)
    (names : Set String) (presented : caller.principal = .token row) (listed : row.allowList = some list) :
    readableNames nameKey names caller = {name | name ∈ names ∧ nameKey.index .secret name ∈ list} := by
  ext name
  simp [readableNames, Caller.allowsName, presented, listed]

end

/-- A token that survives an accepted rotation keeps its row, but for its bundle and the
generation it is sealed for. -/
theorem survivor_kept [Digests] {σ : Type} {disk : Except String Unit} {hook : CommitHook σ} {pk : VaultPk}
    {r : RotationRequest} {ctx : Ctx} {db : Db} {journal : σ} {generation : Nat} {id : TokenId} {row : TokenRow}
    (accepted : (applyRotation disk hook pk r ctx db journal).1 = .ok generation)
    (found : db.tokens.find? id = some row) (survives : id ∉ r.revoke) :
    ∃ bundle sealedFor, (applyRotation disk hook pk r ctx db journal).2.1.tokens.find? id =
      some { row with bundle := bundle, generation := sealedFor } := by
  obtain ⟨record, ran⟩ := writeCritical_accepted accepted
  obtain ⟨vault, middle, loaded, _, applied, _, outcome⟩ := applyRotationBody_ok ran
  obtain ⟨member, same⟩ := Table.find?_eq_some.mp found
  have rows := (applyBatch_ok applied).2.tokens
  obtain ⟨bundle, sealedFor, changed⟩ := resealed_frame vault.pk (r.fromGeneration + 1) r.tokens row
  have left : row ∈ db.tokens.rows.filter fun t =>
      !(decide (t.vaultPk = vault.pk) && r.revoke.contains t.tokenId) := by
    refine List.mem_filter.mpr ⟨member, ?_⟩
    simp [same, survives]
  refine ⟨bundle, sealedFor, ?_⟩
  have reached : (applyRotation disk hook pk r ctx db journal).2.1.tokens = middle.tokens := by
    rw [applyRotation, outcome]
  rw [reached, Table.find?_eq_some]
  constructor
  · rw [rows, ← changed]
    exact List.mem_map_of_mem left
  · exact same

/-- A token that survives an accepted rotation reads the names it read before, of any
names whose fresh indexes are not in its list, exactly when its list named none of them
to begin with. -/
theorem allow_list_survives_iff [Crypto] [Digests] [Ed25519] {σ : Type} (owner : OwnerKeys) (status : RotationStatus)
    (descriptor : Descriptor) (current : FullBundle) (secrets configs : List SecretVersion) (revoke : List TokenId)
    (now : Int) (draws : Draws) (rotation : Rotation)
    (built : buildRotation owner status descriptor current secrets configs revoke now draws = .ok rotation)
    (disk : Except String Unit) (hook : CommitHook σ) (pk : VaultPk) (ctx : Ctx) (db : Db) (journal : σ)
    (generation : Nat) (accepted : (applyRotation disk hook pk rotation.request ctx db journal).1 = .ok generation)
    (id : TokenId) (row : TokenRow) (found : db.tokens.find? id = some row) (list : List NameHmac)
    (listed : row.allowList = some list) (survives : id ∉ revoke) (names : Set String)
    (fresh : ∀ name ∈ names, rotation.newBundle.nameKey.index .secret name ∉ list) :
    ∃ row', (applyRotation disk hook pk rotation.request ctx db journal).2.1.tokens.find? id = some row' ∧
      ∀ before after : Caller, before.principal = .token row → after.principal = .token row' →
        (readableNames rotation.newBundle.nameKey names after = readableNames current.nameKey names before ↔
          ∀ name ∈ names, current.nameKey.index .secret name ∉ list) := by
  obtain ⟨_, revoked⟩ := buildRotation_ok built
  obtain ⟨bundle, sealedFor, kept⟩ := survivor_kept accepted found (revoked ▸ survives)
  refine ⟨_, kept, fun before after first second => ?_⟩
  rw [readableNames_listed current.nameKey names first listed, readableNames_listed _ names second listed]
  have none : {name | name ∈ names ∧ rotation.newBundle.nameKey.index .secret name ∈ list} = ∅ := by
    apply Set.eq_empty_of_forall_notMem
    rintro name ⟨given, hit⟩
    exact fresh name given hit
  rw [none, eq_comm, Set.eq_empty_iff_forall_notMem]
  constructor
  · intro unread name given hit
    exact unread name ⟨given, hit⟩
  · rintro unlisted name ⟨given, hit⟩
    exact unlisted name given hit

/-! ## A list that is lost -/

/-- Libraries that can be run by hand: an index starts with a sum of the name and shows
the rest of its key, a sealed box is what it seals, and an age file is what it encrypts
after the header. -/
@[reducible] def plain : Crypto where
  derive32 ikm _ := if long : ikm.length = 32 then ⟨ikm, long⟩ else .fill 32 0
  hmacSha256 key message := ⟨message.sum :: key.bytes.drop 1, by simp [key.size]⟩
  aeadEncrypt _ _ _ message := some message
  aeadDecrypt _ _ _ ct := some ct
  verifyingKey seed := ⟨seed⟩
  sign _ message := ⟨.fill 64 message.sum⟩
  x25519Public secret := ⟨secret⟩
  sealBox _ _ message := some message
  ageRecipient _ := true
  ageEncrypt _ _ envelope := .ok (utf8 "age-encryption.org/v1\n" ++ envelope)
  ageIdentity _ := true
  ageDecrypt _ ct := some (ct.drop (utf8 "age-encryption.org/v1\n").length)

/-- What `plain` signs verifies, and nothing else does. -/
@[reducible] def plainVerify : Ed25519 where
  verifyStrict _ message sig := sig = ⟨.fill 64 message.sum⟩

theorem plain_index_tail (key : NameKey) (kind : RecordCode) (name : String) :
    (@NameKey.index plain key kind name).raw.bytes.drop 1 = key.raw.bytes.drop 1 := by
  have derived : plain.derive32 key.raw.bytes (info Label.nameIndex []) = key.raw := dif_pos key.raw.size
  change (_ :: (plain.derive32 key.raw.bytes (info Label.nameIndex [])).bytes.drop 1).drop 1 = _
  rw [derived]
  rfl

/-- Keys each filled with one byte. -/
def FreshKeys.filled (b : UInt8) : FreshKeys where
  nameKey := .fill 32 b
  vaultSecret := .fill 32 b
  configSecret := .fill 32 b
  secretWriter := .fill 32 b
  configWriter := .fill 32 b

def Draws.filled (b : UInt8) : Draws where
  keys := .filled b
  owner := .fill 32 b
  secret _ := ⟨.fill 24 b, .fill 32 b⟩
  config _ := ⟨.fill 24 b, .fill 32 b⟩
  token _ := .fill 32 b

/-- A vault with a read token for the secret "A" and no record. -/
def listedCalls (nameKey : NameKey) : List (Call Unit) :=
  let _ := plain
  [.createVault (.ok ()) (.filled 7) 1, .registerToken (.ok ()) 1
    { tokenId := ⟨.fill 16 1⟩, authPub := ⟨.fill 32 1⟩, boxPub := ⟨.fill 32 1⟩, scope := .read, expiresAt := 9,
      bundle := ⟨⟨[1]⟩, ⟨.fill 64 1⟩⟩, generation := 1, allowList := some [nameKey.index .secret "A"] }
    ⟨.owner, 3⟩ .default]

/-- The keys of the vault's first generation. -/
def listedBundle : FullBundle := .generate (.filled 1) 1

def listedOwner : OwnerKeys := ⟨.fill 32 5, .fill 32 6⟩

/-- What the owner is told of the vault. -/
def listedStatus : RotationStatus := ⟨1, 2, some [⟨⟨.fill 16 1⟩, .known .read, ⟨.fill 32 1⟩⟩]⟩

def listedDescriptor : Descriptor :=
  let _ := plain
  let _ := checksum
  listedBundle.descriptor listedOwner.vaultId ⟨.fill 32 0⟩ 1

/-- The rotation that revokes nothing. -/
def listedRotation : Except SealError Rotation :=
  let _ := plain
  let _ := checksum
  let _ := plainVerify
  buildRotation listedOwner listedStatus listedDescriptor listedBundle [] [] [] 5 (.filled 2)

def listedBuilt : Rotation := listedRotation.toOption.get (by decide +kernel)

theorem listed_built : listedRotation = .ok listedBuilt := by decide +kernel

/-- A list of one name survives the rotation when that name's index is not in it. -/
theorem one_name_survives_iff :
    letI := plain
    letI := checksum
    let before := (Backend.run ⟨Db.empty, ()⟩ (listedCalls listedBundle.nameKey)).db
    ∃ row, before.tokens.find? ⟨.fill 16 1⟩ = some row ∧
      ∃ row', (applyRotation (.ok ()) (fun _ _ => (.ok (), ())) 1 listedBuilt.request ⟨.owner, 5⟩ before
          ()).2.1.tokens.find? ⟨.fill 16 1⟩ = some row' ∧
        ∀ first second : Caller, first.principal = .token row → second.principal = .token row' →
          (readableNames listedBuilt.newBundle.nameKey Set.univ second =
              readableNames listedBundle.nameKey Set.univ first ↔
            ∀ name ∈ Set.univ, listedBundle.nameKey.index .secret name ∉ [listedBundle.nameKey.index .secret "A"]) := by
  let _ := plain
  let _ := checksum
  let _ := plainVerify
  intro before
  have listedBefore : (before.tokens.find? ⟨.fill 16 1⟩).map (·.allowList) =
      some (some [listedBundle.nameKey.index .secret "A"]) := by decide +kernel
  obtain ⟨row, found, listed⟩ := Option.map_eq_some_iff.mp listedBefore
  -- The new key's indexes end in other bytes than the listed one.
  have fresh : ∀ name ∈ Set.univ,
      listedBuilt.newBundle.nameKey.index .secret name ∉ [listedBundle.nameKey.index .secret "A"] := by
    intro name _ hit
    have same := congrArg (fun index : NameHmac => index.raw.bytes.drop 1) (List.mem_singleton.mp hit)
    have ends : listedBuilt.newBundle.nameKey.raw = .fill 32 2 := by decide +kernel
    rw [plain_index_tail, plain_index_tail, ends] at same
    exact absurd same (by decide +kernel)
  have accepted : (applyRotation (.ok ()) (fun _ _ => (.ok (), ())) 1 listedBuilt.request ⟨.owner, 5⟩ before ()).1 =
      .ok 2 := by decide +kernel
  have survives := @allow_list_survives_iff plain checksum plainVerify Unit listedOwner listedStatus
    listedDescriptor listedBundle [] [] [] 5 (.filled 2) listedBuilt listed_built (.ok ()) (fun _ _ => (.ok (), ())) 1
    ⟨.owner, 5⟩ before () 2 accepted ⟨.fill 16 1⟩ row found [listedBundle.nameKey.index .secret "A"] listed
    List.not_mem_nil Set.univ fresh
  exact ⟨row, found, survives⟩

/-- The rotation is accepted and the token survives it; the secret its list names was its
to read before, and is not after. -/
theorem allow_list_lost :
    letI := plain
    letI := checksum
    let before := (Backend.run ⟨Db.empty, ()⟩ (listedCalls listedBundle.nameKey)).db
    let outcome := applyRotation (.ok ()) (fun _ _ => (.ok (), ())) 1 listedBuilt.request ⟨.owner, 5⟩ before ()
    listedRotation = .ok listedBuilt ∧ outcome.1 = .ok 2 ∧
      ∃ row row', before.tokens.find? ⟨.fill 16 1⟩ = some row ∧ outcome.2.1.tokens.find? ⟨.fill 16 1⟩ = some row' ∧
        ∀ caller caller' : Caller, caller.principal = .token row → caller'.principal = .token row' →
          "A" ∈ readableNames listedBundle.nameKey Set.univ caller ∧
            "A" ∉ readableNames listedBuilt.newBundle.nameKey Set.univ caller' := by
  let _ := plain
  let _ := checksum
  intro before outcome
  have listedBefore : (before.tokens.find? ⟨.fill 16 1⟩).map (·.allowList) =
      some (some [listedBundle.nameKey.index .secret "A"]) := by decide +kernel
  have listedAfter : (outcome.2.1.tokens.find? ⟨.fill 16 1⟩).map (·.allowList) =
      some (some [listedBundle.nameKey.index .secret "A"]) := by decide +kernel
  obtain ⟨row, found, listed⟩ := Option.map_eq_some_iff.mp listedBefore
  obtain ⟨row', kept, listed'⟩ := Option.map_eq_some_iff.mp listedAfter
  refine ⟨by decide +kernel, by decide +kernel, row, row', found, kept, fun caller caller' first second => ?_⟩
  rw [readableNames_listed _ _ first listed, readableNames_listed _ _ second listed']
  constructor
  · exact ⟨trivial, List.mem_singleton.mpr rfl⟩
  · rintro ⟨_, hit⟩
    exact absurd hit (by decide +kernel)

end GalataVault.Client
