import GalataVault.Proto.Lines

/-!
# Signing contexts

Six kinds of statement are signed, some of them with the same key. Five are framed: a
label, a zero byte and the statement's fields. The labels are distinct and hold no zero
byte, so a frame's label is read off it, and every field has a fixed width. A request is
the sixth, a text that begins with its own label and no zero byte after it.
-/

namespace GalataVault.Proto

/-! ## Frames -/

/-- The label of a frame ends where the first zero byte stands. -/
theorem frame_takeWhile {label : String} (free : 0 ∉ utf8 label) (fields : List (List UInt8)) :
    (frame label fields).takeWhile (· ≠ 0) = utf8 label := by
  unfold frame
  rw [List.takeWhile_append_of_pos]
  · simp
  · intro b stands
    exact decide_eq_true fun zero => free (zero ▸ stands)

/-- Frames under labels without a zero byte are the same only under the same label. -/
theorem label_of_frame {label other : String} {fields more : List (List UInt8)} (free : 0 ∉ utf8 label)
    (free' : 0 ∉ utf8 other) (same : frame label fields = frame other more) : label = other := by
  apply utf8_injective
  rw [← frame_takeWhile free fields, same, frame_takeWhile free' more]

/-- Fields of the same widths are read back from their frame. -/
theorem fields_of_frame {label : String} {fields more : List (List UInt8)}
    (widths : fields.map List.length = more.map List.length) (same : frame label fields = frame label more) :
    fields = more := by
  have flat : fields.flatten = more.flatten := (List.cons.inj (List.append_cancel_left same)).2
  exact List.eq_iff_flatten_eq.mpr ⟨flat, widths⟩

/-! ## Fields -/

theorem VaultId.bytes_injective {a b : VaultId} (same : a.raw.bytes = b.raw.bytes) : a = b :=
  congrArg VaultId.mk (FixedBytes.bytes_injective same)

theorem RecordCode.code_injective {a b : RecordCode} (same : a.code = b.code) : a = b := by
  cases a <;> cases b <;> first | rfl | exact absurd same (by decide)

/-- The flag of a tombstone is read back from its byte. -/
theorem flag_injective {a b : Bool} (same : (if a then (1 : UInt8) else 0) = if b then 1 else 0) : a = b := by
  cases a <;> cases b <;> first | rfl | exact absurd same (by decide)

theorem beBytesI64_length (i : Int) : (beBytesI64 i).length = 8 := beBytes_length 8 _

/-! ## Statements -/

/-- Everything the protocol signs. -/
inductive Statement where
  | descriptor (d : Descriptor)
  | bundle (vaultId : VaultId) (tokenId : TokenId) (scopeCode : UInt8) (generation : Nat) (sealedBytes : List UInt8)
  | record (context : RecordContext)
  | children (vaultId : VaultId) (version : Nat) (ct : List UInt8)
  | report (tokenId : TokenId) (ts : Int)
  | request (params : SigParams) (signed : SignedRequest)

namespace Statement

/-- The bytes that are signed. -/
def signingInput [Digests] : Statement → List UInt8
  | descriptor d => d.signingInput
  | bundle vaultId tokenId scopeCode generation sealedBytes =>
    bundleSigningInput vaultId tokenId scopeCode generation sealedBytes
  | record context => context.signingInput
  | children vaultId version ct => childrenSigningInput vaultId version ct
  | report tokenId ts => reportSigningInput tokenId ts
  | request params signed => params.signingInput signed

/-- The label a statement is signed under. -/
def label : Statement → String
  | descriptor _ => Label.descriptor
  | bundle .. => Label.bundle
  | record _ => Label.record
  | children .. => Label.children
  | report .. => Label.report
  | request .. => Label.sig

/-- The numbers of a statement fit the types of their fields. -/
def Sized : Statement → Prop
  | descriptor d => d.generation < 2 ^ 32 ∧ -2 ^ 63 ≤ d.createdAt ∧ d.createdAt < 2 ^ 63
  | bundle _ _ _ generation _ => generation < 2 ^ 32
  | record context =>
    context.generation < 2 ^ 32 ∧ context.version < 2 ^ 64 ∧ -2 ^ 63 ≤ context.writtenAt ∧ context.writtenAt < 2 ^ 63
  | children _ version _ => version < 2 ^ 64
  | report _ ts => -2 ^ 63 ≤ ts ∧ ts < 2 ^ 63
  | request .. => True

/-- Two statements are of one kind and every field that is signed is the same, with hashes
in place of what is hashed. Of requests this is meant only where no line feed stands in
them. -/
def Agree [Digests] : Statement → Statement → Prop
  | descriptor d, descriptor e => d = e
  | bundle vaultId tokenId scopeCode generation sealedBytes, bundle vaultId' tokenId' scopeCode' generation' sealed' =>
    vaultId = vaultId' ∧ tokenId = tokenId' ∧ scopeCode = scopeCode' ∧ generation = generation' ∧
      Digests.sha256 sealedBytes = Digests.sha256 sealed'
  | record context, record other => context = other
  | children vaultId version ct, children vaultId' version' ct' =>
    vaultId = vaultId' ∧ version = version' ∧ Digests.sha256 ct = Digests.sha256 ct'
  | report tokenId ts, report tokenId' ts' => tokenId = tokenId' ∧ ts = ts'
  | request p a, request q b => a.LineFree → b.LineFree → SameRequest p q a b
  | _, _ => False

end Statement

/-! ## Separation -/

/-- The labels of frames. -/
def frameLabels : List String := [Label.descriptor, Label.bundle, Label.record, Label.children, Label.report]

theorem frameLabels_free : ∀ label ∈ frameLabels, 0 ∉ utf8 label := by
  simp only [utf8_eq_data]
  decide +kernel

/-- The labels of frames differ from that of requests within their first seven bytes. -/
theorem frameLabels_apart :
    ∀ label ∈ frameLabels, 7 ≤ (utf8 label).length ∧ (utf8 label).take 7 ≠ (utf8 Label.sig).take 7 := by
  simp only [utf8_eq_data]
  decide +kernel

/-! ## One kind at a time -/

theorem descriptor_of_signingInput {d e : Descriptor} (sized : (Statement.descriptor d).Sized)
    (sized' : (Statement.descriptor e).Sized) (same : d.signingInput = e.signingInput) : d = e := by
  have flat : [d.encode].flatten = [e.encode].flatten := (List.cons.inj (List.append_cancel_left same)).2
  have encoded : d.encode = e.encode := by simpa using flat
  have decoded : Descriptor.decode d.encode = .ok e := by
    rw [encoded, decode_encode e sized'.1 sized'.2.1 sized'.2.2]
  rw [decode_encode d sized.1 sized.2.1 sized.2.2] at decoded
  exact Except.ok.inj decoded

theorem record_of_signingInput {c c' : RecordContext} (sized : (Statement.record c).Sized)
    (sized' : (Statement.record c').Sized) (same : c.signingInput = c'.signingInput) : c = c' := by
  obtain ⟨generation, version, low, high⟩ := sized
  obtain ⟨generation', version', low', high'⟩ := sized'
  have fields := fields_of_frame (by simp [beBytes_length, beBytesI64_length]) same
  simp only [List.cons.injEq, and_true] at fields
  obtain ⟨vault, generations, kind, name, versions, written, tombstone, value, nameCt⟩ := fields
  obtain ⟨vaultId, g, k, nameIndex, v, writtenAt, t, valueCtHash, nameCtHash⟩ := c
  obtain ⟨vaultId', g', k', nameIndex', v', writtenAt', t', valueCtHash', nameCtHash'⟩ := c'
  rw [RecordContext.mk.injEq]
  exact ⟨VaultId.bytes_injective vault, beBytes_injective (by omega) (by omega) generations,
    RecordCode.code_injective kind, NameHmac.bytes_injective name, beBytes_injective (by omega) (by omega) versions,
    beBytesI64_injective low high low' high' written, flag_injective tombstone, Hash32.bytes_injective value,
    Hash32.bytes_injective nameCt⟩

/-! ## All kinds -/

section

variable [Digests]

/-- A request's signing input begins with its label. -/
theorem SigParams.signingInput_begins (p : SigParams) (request : SignedRequest) :
    (p.signingInput request).take 7 = (utf8 Label.sig).take 7 := by
  have long : 7 ≤ (utf8 Label.sig).length := by
    rw [utf8_eq_data]
    decide +kernel
  unfold signingInput
  rw [String.intercalate_cons_of_ne_nil (by simp), utf8_append, utf8_append, List.append_assoc,
    List.take_append_of_le_length long]

/-- No frame is the signing input of a request. -/
theorem frame_ne_request {label : String} (framed : label ∈ frameLabels) (fields : List (List UInt8)) (p : SigParams)
    (request : SignedRequest) : frame label fields ≠ p.signingInput request := by
  intro same
  obtain ⟨long, apart⟩ := frameLabels_apart label framed
  apply apart
  rw [← p.signingInput_begins request, ← same, frame, List.take_append_of_le_length long]

namespace Statement

/-- A statement is framed, or it is a request. -/
theorem framed_or_request (s : Statement) :
    (s.label ∈ frameLabels ∧ ∃ fields, s.signingInput = frame s.label fields) ∨ ∃ p r, s = request p r := by
  cases s with
  | descriptor d => exact .inl ⟨by simp [label, frameLabels], _, rfl⟩
  | bundle => exact .inl ⟨by simp [label, frameLabels], _, rfl⟩
  | record context => exact .inl ⟨by simp [label, frameLabels], _, rfl⟩
  | children => exact .inl ⟨by simp [label, frameLabels], _, rfl⟩
  | report => exact .inl ⟨by simp [label, frameLabels], _, rfl⟩
  | request p r => exact .inr ⟨p, r, rfl⟩

/-- Equal signing inputs are signed under one label. -/
theorem label_of_signingInput {a b : Statement} (same : a.signingInput = b.signingInput) : a.label = b.label := by
  obtain ⟨framed, fields, input⟩ | ⟨p, r, rfl⟩ := a.framed_or_request
  · obtain ⟨framed', more, input'⟩ | ⟨q, r', rfl⟩ := b.framed_or_request
    · rw [input, input'] at same
      exact label_of_frame (frameLabels_free _ framed) (frameLabels_free _ framed') same
    · rw [input] at same
      exact absurd same (frame_ne_request framed fields q r')
  · obtain ⟨framed', more, input'⟩ | ⟨q, r', rfl⟩ := b.framed_or_request
    · rw [input'] at same
      exact absurd same.symm (frame_ne_request framed' more p r)
    · rfl

end Statement

/-- Statements of which the same bytes are signed are of one kind and agree in every field
that is signed. -/
theorem agree_of_signingInput {a b : Statement} (sized : a.Sized) (sized' : b.Sized)
    (same : a.signingInput = b.signingInput) : a.Agree b := by
  have labels : a.label = b.label := Statement.label_of_signingInput same
  cases a with
  | descriptor d =>
    cases b with
    | descriptor e => exact descriptor_of_signingInput sized sized' same
    | bundle | record | children | report | request => exact absurd labels (by simp [Statement.label]; decide)
  | bundle vaultId tokenId scopeCode generation sealedBytes =>
    cases b with
    | bundle vaultId' tokenId' scopeCode' generation' sealed' =>
      change generation < 2 ^ 32 at sized
      change generation' < 2 ^ 32 at sized'
      have fields := fields_of_frame (by simp [beBytes_length]) same
      simp only [List.cons.injEq, and_true] at fields
      obtain ⟨vault, token, scope, generations, digest⟩ := fields
      exact ⟨VaultId.bytes_injective vault, TokenId.bytes_injective token, scope,
        beBytes_injective (by omega) (by omega) generations, Hash32.bytes_injective digest⟩
    | descriptor | record | children | report | request => exact absurd labels (by simp [Statement.label]; decide)
  | record context =>
    cases b with
    | record other => exact record_of_signingInput sized sized' same
    | descriptor | bundle | children | report | request => exact absurd labels (by simp [Statement.label]; decide)
  | children vaultId version ct =>
    cases b with
    | children vaultId' version' ct' =>
      change version < 2 ^ 64 at sized
      change version' < 2 ^ 64 at sized'
      have fields := fields_of_frame (by simp [beBytes_length]) same
      simp only [List.cons.injEq, and_true] at fields
      obtain ⟨vault, versions, digest⟩ := fields
      exact ⟨VaultId.bytes_injective vault, beBytes_injective (by omega) (by omega) versions,
        Hash32.bytes_injective digest⟩
    | descriptor | bundle | record | report | request => exact absurd labels (by simp [Statement.label]; decide)
  | report tokenId ts =>
    cases b with
    | report tokenId' ts' =>
      have fields := fields_of_frame (by simp [beBytesI64_length]) same
      simp only [List.cons.injEq, and_true] at fields
      exact ⟨TokenId.bytes_injective fields.1, beBytesI64_injective sized.1 sized.2 sized'.1 sized'.2 fields.2⟩
    | descriptor | bundle | record | children | request => exact absurd labels (by simp [Statement.label]; decide)
  | request p r =>
    cases b with
    | request q r' => exact fun free free' => sameRequest_of_signingInput free free' same
    | descriptor | bundle | record | children | report => exact absurd labels (by simp [Statement.label]; decide)

end

theorem agree_of_signingInput_report :
    let _ := byteDigest 0
    (Statement.report ⟨.fill 16 1⟩ 5).Agree (.report ⟨.fill 16 1⟩ 5) :=
  let _ := byteDigest 0
  agree_of_signingInput (a := .report ⟨.fill 16 1⟩ 5) (b := .report ⟨.fill 16 1⟩ 5) ⟨by decide, by decide⟩
    ⟨by decide, by decide⟩ rfl

/-- With a line feed in them, a method and a path can be read another way. -/
theorem line_feed_moves_between_fields :
    let _ := byteDigest 0
    let params : SigParams :=
      { actor := .owner, vaultId := ⟨.fill 16 1⟩, ts := 1, nonce := .fill 16 1, sig := ⟨.fill 64 1⟩ }
    let one : SignedRequest := ⟨"GET\n1", "2", [], none, none⟩
    let other : SignedRequest := ⟨"GET", "1\n2", [], none, none⟩
    (Statement.request params one).signingInput = (Statement.request params other).signingInput ∧
      asciiUppercase one.method ≠ asciiUppercase other.method ∧ one.pathAndQuery ≠ other.pathAndQuery := by
  intro _ params one other
  refine ⟨congrArg utf8 (String.toList_inj.mp ?_), by decide +kernel, by decide⟩
  decide +kernel

end GalataVault.Proto
