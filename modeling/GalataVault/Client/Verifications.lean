import GalataVault.Backend.Histories
import GalataVault.Server.Conduct
import GalataVault.Server.Listing

/-!
# Three ways to verify a record

A stored version leaves the server in three shapes: whole, as an entry of its name's
history, and, while it is the head, as an item of a list. They are built from different
columns: a list item takes its tombstone flag from the head and its hash from what was
stored with the version, a history entry hashes the value again, and a whole record
carries the value itself. Each shape has its own verification, and every verification
rebuilds the context that the writer signed.

In every database a run reaches the three contexts are one, so the verifications answer
alike.
-/

namespace GalataVault.Client

open Proto Backend

/-! ## What the server builds -/

/-- A whole record, as `read` answers it. -/
def versionBody (row : VersionRow) : SecretVersion where
  nameHmac := row.nameHmac
  version := row.version
  nameCt := ⟨row.nameCt⟩
  valueCt := row.valueCt.map B64.mk
  generation := row.generation
  writtenAt := row.writtenAt
  tombstone := row.tombstone
  sig := row.sig

/-- An item of a list, as `list` builds it from a head. -/
def listItem (h : HeadRow) : SecretListItem where
  nameHmac := h.nameHmac
  nameCt := ⟨h.nameCt⟩
  version := h.version
  writtenAt := h.writtenAt
  size := h.size
  tombstone := h.tombstone
  generation := h.generation
  valueCtHash := h.valueCtHash
  sig := h.sig

section

variable [Digests]

/-! ## What a verification binds -/

/-- The context a whole record is verified for. -/
def versionContext (descriptor : Descriptor) (kind : RecordCode) (v : SecretVersion) : RecordContext :=
  .ofCiphertexts descriptor.vaultId v.generation kind v.nameHmac v.version v.writtenAt v.nameCt.bytes
    (v.valueCt.map (·.bytes))

/-- The context a listed record is verified for. -/
def listedContext (descriptor : Descriptor) (kind : RecordCode) (item : SecretListItem) : RecordContext where
  vaultId := descriptor.vaultId
  generation := item.generation
  kind := kind
  nameIndex := item.nameHmac
  version := item.version
  writtenAt := item.writtenAt
  tombstone := item.tombstone
  valueCtHash := item.valueCtHash
  nameCtHash := Digests.sha256 item.nameCt.bytes

/-- The context an entry of a history is verified for. -/
def metaContext (descriptor : Descriptor) (kind : RecordCode) (index : NameHmac)
    (m : Server.VersionMeta) : RecordContext where
  vaultId := descriptor.vaultId
  generation := m.generation
  kind := kind
  nameIndex := index
  version := m.version
  writtenAt := m.writtenAt
  tombstone := m.tombstone
  valueCtHash := m.valueCtHash
  nameCtHash := m.nameCtHash

/-- What a stored version's signature binds, for a vault and a kind. -/
def storedContext (vaultId : VaultId) (kind : RecordCode) (row : VersionRow) : RecordContext where
  vaultId := vaultId
  generation := row.generation
  kind := kind
  nameIndex := row.nameHmac
  version := row.version
  writtenAt := row.writtenAt
  tombstone := row.valueCt.isNone
  valueCtHash := valueHash row.valueCt
  nameCtHash := Digests.sha256 row.nameCt

section

variable [Ed25519]

/-- A verification is of the descriptor's generation and then of one context. -/
def verifyContext (descriptor : Descriptor) (context : RecordContext) (sig : Sig64) : Except SealError Unit := do
  checkGeneration descriptor context.generation
  (context.verify (writerPub descriptor context.kind) sig).mapError .integrity

omit [Digests] in
/-- What a verification accepts: a context of the descriptor's generation, with the
signature of the writer key for its kind. -/
theorem verifyContext_ok_iff {descriptor : Descriptor} {context : RecordContext} {sig : Sig64} :
    verifyContext descriptor context sig = .ok () ↔ context.generation = descriptor.generation ∧
      context.verify (writerPub descriptor context.kind) sig = .ok () := by
  unfold verifyContext checkGeneration
  by_cases current : context.generation = descriptor.generation
  · rw [if_neg (not_not.mpr current)]
    constructor
    · intro accepted
      exact ⟨current, except_mapError_ok accepted⟩
    · rintro ⟨_, verified⟩
      rw [verified]
      rfl
  · rw [if_pos current]
    constructor
    · intro impossible
      cases impossible
    · rintro ⟨same, _⟩
      exact absurd same current

theorem verifyListed_eq (descriptor : Descriptor) (kind : RecordCode) (item : SecretListItem) :
    verifyListed descriptor kind item = verifyContext descriptor (listedContext descriptor kind item) item.sig := rfl

omit [Digests] in
theorem verifyMeta_eq (descriptor : Descriptor) (kind : RecordCode) (index : NameHmac)
    (m : Server.VersionMeta) :
    verifyMeta descriptor kind index m = verifyContext descriptor (metaContext descriptor kind index m) m.sig := rfl

/-- A whole record whose flag agrees with its value is verified as its context is. -/
theorem verifyVersion_eq {v : SecretVersion} (flag : v.tombstone = v.valueCt.isNone) (descriptor : Descriptor)
    (kind : RecordCode) :
    verifyVersion descriptor kind v = verifyContext descriptor (versionContext descriptor kind v) v.sig := by
  rw [verifyVersion, if_neg (not_not.mpr flag)]
  rfl

end

/-! ## One context -/

theorem versionContext_versionBody (descriptor : Descriptor) (kind : RecordCode) (row : VersionRow) :
    versionContext descriptor kind (versionBody row) = storedContext descriptor.vaultId kind row := by
  cases value : row.valueCt <;> simp [versionContext, versionBody, storedContext, RecordContext.ofCiphertexts, valueHash, value]

theorem metaContext_versionMeta (descriptor : Descriptor) (kind : RecordCode) (row : VersionRow) :
    metaContext descriptor kind row.nameHmac (Server.versionMeta row) = storedContext descriptor.vaultId kind row := by
  simp [metaContext, Server.versionMeta, storedContext, row.tombstone_eq]

theorem listedContext_listed (descriptor : Descriptor) (kind : RecordCode) (row : VersionRow) :
    listedContext descriptor kind (listItem row.listed) = storedContext descriptor.vaultId kind row := by
  simp [listedContext, listItem, VersionRow.listed, storedContext, row.tombstone_eq]

/-- The verifications answer alike of the shapes of one version, each for its one
context. -/
structure Alike [Ed25519] (descriptor : Descriptor) (kind : RecordCode) (row : VersionRow) : Prop where
  version : verifyVersion descriptor kind (versionBody row) =
    verifyContext descriptor (storedContext descriptor.vaultId kind row) row.sig
  history : verifyMeta descriptor kind row.nameHmac (Server.versionMeta row) =
    verifyContext descriptor (storedContext descriptor.vaultId kind row) row.sig
  listed : verifyListed descriptor kind (listItem row.listed) =
    verifyContext descriptor (storedContext descriptor.vaultId kind row) row.sig

theorem alike [Ed25519] (descriptor : Descriptor) (kind : RecordCode) (row : VersionRow) : Alike descriptor kind row where
  version := by
    have flag : (versionBody row).tombstone = (versionBody row).valueCt.isNone := by
      simp [versionBody, row.tombstone_eq]
    rw [verifyVersion_eq flag, versionContext_versionBody]
    rfl
  history := by
    rw [verifyMeta_eq, metaContext_versionMeta]
    rfl
  listed := by
    rw [verifyListed_eq, listedContext_listed]
    rfl

end

/-! ## Accepted writes -/

section

variable [Digests] [Ed25519] {σ : Type}

omit [Digests] [Ed25519] in
/-- A sequence that ends with a failure has no result. -/
theorem alone_fail {α β : Type} (serve : {β : Type} → Server.Op β → World σ → β × World σ) (first : Server.Handler α)
    (failure : Server.CoreError) (world : World σ) (value : β) :
    ((first >>= fun _ => Interaction.Program.fail failure).alone serve world).1 ≠ .ok value := by
  obtain ⟨_, _, _, ends⟩ | ⟨_, _, _, ends⟩ :=
    Interaction.Program.alone_bind serve first (fun _ => Interaction.Program.fail (α := β) failure) world
  · rw [ends]
    intro impossible
    cases impossible
  · rw [ends]
    intro impossible
    cases impossible

/-- What the server's check of a write accepts. -/
theorem signed_of_checkSigned {caller : Server.Caller} {kind : RecordKind} {action : AuditAction} {name : NameHmac}
    {w : RecordWrite} {env : Server.Env σ} {world : World σ}
    (passed : ((Server.checkSigned caller kind action name w).alone (Server.perform env) world).1 = .ok ()) :
    Server.Signed caller kind name w := by
  unfold Server.checkSigned at passed
  split at passed
  · exact absurd passed (alone_fail _ _ _ _ _)
  · next current =>
    cases decoded : caller.descriptor with
    | error failure =>
      rw [decoded] at passed
      cases passed
    | ok descriptor =>
      rw [decoded] at passed
      dsimp only [Server.Handler.check, Interaction.Program.bind, bind] at passed
      split at passed
      · next verified => exact ⟨not_not.mp current, descriptor, Server.decoded_of_descriptor decoded, verified⟩
      · exact absurd passed (alone_fail _ _ _ _ _)

/-- A descriptor of a caller's vault at its generation, with the writer key that the
server holds for the kind. -/
structure Current (caller : Server.Caller) (kind : RecordKind) (descriptor : Descriptor) : Prop where
  vaultId : descriptor.vaultId = caller.vault.vaultId
  generation : descriptor.generation = caller.vault.generation
  writer : ∀ stored, caller.descriptor = .ok stored → writerPub descriptor (Server.wire kind) = Server.writerPub stored kind

/-- The store accepts a write as one version of a name, by a put or by a delete. -/
inductive Accepts (db : Db) (pk : VaultPk) (kind : RecordKind) (name : NameHmac) (w : RecordWrite) : Call σ → Nat → Prop
  | put {disk : Except String Unit} {pre : Precondition} {ctx : Ctx} {limits : Limits} {version : Nat}
      (accepted : (putRecord disk pk kind name pre w ctx limits db).1 = .ok version) :
      Accepts db pk kind name w (.putRecord disk pk kind name pre w ctx limits) version
  | delete {disk : Except String Unit} {ifMatch : Nat} {ctx : Ctx} {limits : Limits} {version : Nat}
      (accepted : (deleteRecord disk pk kind name ifMatch w ctx limits db).1 = .ok version) :
      Accepts db pk kind name w (.deleteRecord disk pk kind name ifMatch w ctx limits) version

omit [Ed25519] in
/-- An accepted write is its name's head, with the number that the writer signed. -/
theorem Accepts.creates {world : World σ} {pk : VaultPk} {kind : RecordKind} {name : NameHmac} {w : RecordWrite}
    {call : Call σ} {version : Nat} (accepts : Accepts world.db pk kind name w call version) (lead : HeadsLead world.db) :
    w.version = version ∧ ∃ writer, Creates world.db (step world call).db kind pk (w.toInsert name version writer) := by
  cases accepts with
  | put accepted =>
    obtain ⟨signed, appended⟩ := putRecord_appended lead accepted
    exact ⟨signed, _, appended.created⟩
  | delete accepted =>
    obtain ⟨signed, appended⟩ := deleteRecord_appended lead accepted
    exact ⟨signed, _, appended.created⟩

/-- A write that the server's check accepted is verified under every current descriptor
once it is stored. -/
theorem verified_of_signed (pk : VaultPk) (writer : Actor) {caller : Server.Caller} {kind : RecordKind} {name : NameHmac}
    {w : RecordWrite} {descriptor : Descriptor} (signed : Server.Signed caller kind name w)
    (current : Current caller kind descriptor) :
    verifyContext descriptor (storedContext descriptor.vaultId (Server.wire kind)
      ((w.toInsert name w.version writer).cols pk).row) w.sig = .ok () := by
  obtain ⟨generation, stored, decoded, verified⟩ := signed
  have held : caller.descriptor = .ok stored := by rw [Server.Caller.descriptor, decoded]; rfl
  rw [verifyContext_ok_iff]
  refine ⟨generation.trans current.generation.symm, ?_⟩
  rw [current.vaultId]
  change RecordContext.verify _ (writerPub descriptor (Server.wire kind)) w.sig = .ok ()
  rw [current.writer stored held, ← verified]
  rfl

/-- In every database a run reaches, the whole record and the history entry of every stored
version, and the list item of every head, are accepted or refused together under any
descriptor and for any kind: each verification is of one context, whose fields are the
version's own. A write that the server's check accepted and the store took is a head that
all three accept under the current generation's descriptor. -/
theorem verifications_agree (journal : σ) (calls : List (Call σ)) (pk : VaultPk) (kind : RecordKind) :
    let world := Backend.run ⟨Db.empty, journal⟩ calls
    (∀ name version row, recordVersion pk kind name version world.db = some row → ∀ descriptor code,
      versionContext descriptor code (versionBody row) = storedContext descriptor.vaultId code row ∧
      metaContext descriptor code name (Server.versionMeta row) = storedContext descriptor.vaultId code row ∧
      verifyVersion descriptor code (versionBody row) =
        verifyContext descriptor (storedContext descriptor.vaultId code row) row.sig ∧
      verifyMeta descriptor code name (Server.versionMeta row) =
        verifyContext descriptor (storedContext descriptor.vaultId code row) row.sig) ∧
    (∀ cursor limit h, h ∈ listRecords pk kind cursor limit world.db →
      ∃ row, latestRecord pk kind h.nameHmac world.db = some row ∧
        recordVersion pk kind h.nameHmac h.version world.db = some row ∧ ∀ descriptor code,
          listedContext descriptor code (listItem h) = storedContext descriptor.vaultId code row ∧
          verifyListed descriptor code (listItem h) =
            verifyContext descriptor (storedContext descriptor.vaultId code row) row.sig) ∧
    ∀ (caller : Server.Caller) action name w (env : Server.Env σ) (met : World σ) call version,
      ((Server.checkSigned caller kind action name w).alone (Server.perform env) met).1 = .ok () →
      Accepts world.db pk kind name w call version →
      let after := (step world call).db
      ∃ row, recordVersion pk kind name version after = some row ∧ latestRecord pk kind name after = some row ∧
        (∀ cursor limit h, h ∈ listRecords pk kind cursor limit after → h.nameHmac = name → h = row.listed) ∧
        ∀ descriptor, Current caller kind descriptor →
          verifyVersion descriptor (Server.wire kind) (versionBody row) = .ok () ∧
          verifyMeta descriptor (Server.wire kind) name (Server.versionMeta row) = .ok () ∧
          verifyListed descriptor (Server.wire kind) (listItem row.listed) = .ok () := by
  intro world
  have lead : HeadsLead world.db := run_headsLead journal calls
  have hashed : Hashed world.db := Backend.run_hashed journal calls
  refine ⟨?_, ?_, ?_⟩
  · intro name version row found descriptor code
    obtain ⟨_, _, _, _, rfl, _⟩ := recordVersion_iff.mp found
    exact ⟨versionContext_versionBody .., metaContext_versionMeta .., (alike descriptor code row).version,
      (alike descriptor code row).history⟩
  · intro cursor limit h member
    obtain ⟨row, latest, same⟩ := listRecords_mem lead hashed member
    have number : h.version = row.version := congrArg HeadRow.version same
    have named : h.nameHmac = row.nameHmac := congrArg HeadRow.nameHmac same
    have stored : recordVersion pk kind h.nameHmac h.version world.db = some row := by
      rw [latestRecord_last lead] at latest
      rw [number]
      exact recordVersions_mem.mp (List.mem_of_getLast? latest)
    refine ⟨row, latest, stored, fun descriptor code => ?_⟩
    rw [same]
    exact ⟨listedContext_listed .., (alike descriptor code row).listed⟩
  · intro caller action name w env met call version passed accepts after
    have signed := signed_of_checkSigned passed
    obtain ⟨rfl, writer, created⟩ := accepts.creates lead
    have leads : HeadsLead after := step_headsLead world call lead
    have hashes : Hashed after := (step_effect world call).hashed hashed
    have latest : latestRecord pk kind name after = some ((w.toInsert name w.version writer).cols pk).row := by
      have head : after.loadHead kind pk name = some (w.version, w.valueCt.isNone) := created.head
      rw [latestRecord, head]
      exact created.stored
    refine ⟨_, created.stored, latest, ?_, ?_⟩
    · intro cursor limit h member named
      obtain ⟨row, found, same⟩ := listRecords_mem leads hashes member
      rw [named, latest, Option.some.injEq] at found
      rw [same, found]
    · intro descriptor current
      have accepted := verified_of_signed pk writer signed current
      have shapes := alike descriptor (Server.wire kind) ((w.toInsert name w.version writer).cols pk).row
      exact ⟨shapes.version.trans accepted, shapes.history.trans accepted, shapes.listed.trans accepted⟩

omit [Digests] [Ed25519] in
/-- The first version of a secret is verified under the descriptor that its vault was
created with. -/
theorem verifications_agree_of_put :
    let _ := checksum
    let _ := Server.trusting
    let created := Server.newcomer 7
    let descriptor : Descriptor :=
      { vaultId := created.vaultId, generation := 1, vaultPub := ⟨.fill 32 7⟩, configPub := ⟨.fill 32 7⟩,
        secretWriterPub := ⟨.fill 32 7⟩, configWriterPub := ⟨.fill 32 7⟩, prevHash := ⟨.fill 32 0⟩, createdAt := 1 }
    let caller : Server.Caller := { Server.firstOwner with
      vault := { Server.firstOwner.vault with vaultId := created.vaultId, descriptor := created.descriptor } }
    let call : Call Unit := putFilled .ifNoneMatch 1
    let after := (step (Backend.run ⟨Db.empty, ()⟩ [.createVault (.ok ()) (.filled 7) 1]) call).db
    Current caller .secret descriptor ∧ ∃ row, recordVersion 1 .secret ⟨.fill 32 1⟩ 1 after = some row ∧
      verifyVersion descriptor .secret (versionBody row) = .ok () := by
  intro _ _ created descriptor caller call after
  have current : Current caller .secret descriptor :=
    { vaultId := rfl
      generation := rfl
      writer := fun stored decoded => by
        have held : caller.descriptor.toOption = some descriptor := by decide +kernel
        rw [decoded] at held
        exact congrArg (Server.writerPub · .secret) (Option.some.inj held).symm }
  obtain ⟨row, found, _, _, accepted⟩ := (verifications_agree () [.createVault (.ok ()) (.filled 7) 1] 1 .secret).2.2
    caller .secretPut ⟨.fill 32 1⟩ (.filled 1 5) Server.calm ⟨Db.empty, ()⟩ call 1 (by decide +kernel)
    (.put (by decide +kernel))
  exact ⟨current, row, found, (accepted descriptor current).1⟩

end

end GalataVault.Client
