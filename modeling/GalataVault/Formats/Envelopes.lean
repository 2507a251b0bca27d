import GalataVault.Client.Opening
import GalataVault.Formats.Descriptors

/-!
# The bytes an envelope is

An envelope's plaintext is a version, a kind, for a config a format, six fields of fixed
width and the body. Decoding accepts nothing but encodings, and the slices it takes on the
way are all in range: each is taken after the length it needs was checked.
-/

namespace GalataVault.Formats

open Proto Client

/-! ## Slices -/

/-- `&bytes[start..]`; none where the start is out of range, and the program stops. -/
def sliceFrom (bytes : List UInt8) (start : Nat) : Option (List UInt8) :=
  if start ≤ bytes.length then some (bytes.drop start) else none

/-- `&bytes[start..stop]`; none where the range is out of range, and the program stops. -/
def sliceRange (bytes : List UInt8) (start stop : Nat) : Option (List UInt8) :=
  if start ≤ stop ∧ stop ≤ bytes.length then some ((bytes.drop start).take (stop - start)) else none

/-- The fields after the kind and the format, with every slice the program takes. -/
def decodeFieldsSliced (kind : RecordCode) (format : Option ConfigFormat) (rest : List UInt8) :
    Option (Except SealError Decoded) :=
  let fixed := 38
  if rest.length < fixed then some (.error (.envelope .truncated))
  else
    let fields : Except SealError (EnvelopeContext × Nat) := do
      let vaultId ← field rest 0 16
      let generation ← field rest 16 4
      let version ← field rest 20 8
      let writtenAt ← field rest 28 8
      let nameField ← field rest 36 2
      pure (⟨⟨vaultId⟩, beNat generation.bytes, beNat version.bytes, beI64 writtenAt.bytes⟩, beNat nameField.bytes)
    match fields with
    | .error e => some (.error e)
    | .ok (ctx, nameLen) =>
      if maxNameLen < nameLen then some (.error (.envelope (.nameTooLong nameLen)))
      else if rest.length < fixed + nameLen then some (.error (.envelope .truncated))
      else
        (sliceRange rest fixed (fixed + nameLen)).bind fun nameBytes =>
          match String.fromUTF8? ⟨nameBytes.toArray⟩ with
          | none => some (.error (.envelope .nameNotUtf8))
          | some name => (sliceFrom rest (fixed + nameLen)).map fun body => .ok ⟨kind, format, ctx, name, body⟩

/-- `decode_envelope` with every slice the program takes. -/
def decodeEnvelopeSliced (bytes : List UInt8) : Option (Except SealError Decoded) :=
  match bytes[0]? with
  | none => some (.error (.envelope .truncated))
  | some version =>
    if version ≠ envelopeVersion then some (.error (.envelope (.unknownVersion version)))
    else
      match bytes[1]? with
      | none => some (.error (.envelope .truncated))
      | some kindCode =>
        match RecordCode.fromCode kindCode with
        | none => some (.error (.envelope (.unknownKind kindCode)))
        | some .secret => (sliceFrom bytes 2).bind (decodeFieldsSliced .secret none)
        | some .config =>
          match bytes[2]? with
          | none => some (.error (.envelope .truncated))
          | some code =>
            match ConfigFormat.fromCode code with
            | none => some (.error (.envelope (.unknownFormat code)))
            | some format => (sliceFrom bytes 3).bind (decodeFieldsSliced .config (some format))

theorem field_eq_slice {bytes : List UInt8} {start width : Nat} (inside : start + width ≤ bytes.length) :
    field bytes start width = .ok (slice bytes start width inside) :=
  field_of_take (take_eq_slice inside)

/-- The context that the fixed fields spell. -/
def contextOf (rest : List UInt8) (long : 38 ≤ rest.length) : EnvelopeContext where
  vaultId := ⟨slice rest 0 16 (by omega)⟩
  generation := beNat (slice rest 16 4 (by omega)).bytes
  version := beNat (slice rest 20 8 (by omega)).bytes
  writtenAt := beI64 (slice rest 28 8 (by omega)).bytes

/-- The length of the name, as the last fixed field gives it. -/
def nameLength (rest : List UInt8) (long : 38 ≤ rest.length) : Nat := beNat (slice rest 36 2 (by omega)).bytes

theorem contextOf_fits (rest : List UInt8) (long : 38 ≤ rest.length) : (contextOf rest long).Fits where
  generation := beNat_field_lt _
  version := beNat_field_lt _
  low := (beI64_bounds _).1
  high := (beI64_bounds _).2

/-- What decoding the fields comes to once the fixed ones are there. -/
theorem decodeFields_of_long (kind : RecordCode) (format : Option ConfigFormat) {rest : List UInt8}
    (long : 38 ≤ rest.length) :
    decodeFields kind format rest =
      if maxNameLen < nameLength rest long then .error (.envelope (.nameTooLong (nameLength rest long)))
      else if rest.length < 38 + nameLength rest long then .error (.envelope .truncated)
      else
        match String.fromUTF8? ⟨((rest.drop 38).take (nameLength rest long)).toArray⟩ with
        | none => .error (.envelope .nameNotUtf8)
        | some name => .ok ⟨kind, format, contextOf rest long, name, rest.drop (38 + nameLength rest long)⟩ := by
  unfold decodeFields
  rw [if_neg (by omega), field_eq_slice (show 0 + 16 ≤ rest.length by omega),
    field_eq_slice (show 16 + 4 ≤ rest.length by omega), field_eq_slice (show 20 + 8 ≤ rest.length by omega),
    field_eq_slice (show 28 + 8 ≤ rest.length by omega), field_eq_slice (show 36 + 2 ≤ rest.length by omega)]
  rfl

theorem decodeFieldsSliced_eq (kind : RecordCode) (format : Option ConfigFormat) (rest : List UInt8) :
    decodeFieldsSliced kind format rest = some (decodeFields kind format rest) := by
  unfold decodeFieldsSliced
  dsimp only
  split
  · next short =>
    unfold decodeFields
    rw [if_pos short]
    rfl
  · next long =>
    rw [Nat.not_lt] at long
    rw [decodeFields_of_long kind format long, field_eq_slice (show 0 + 16 ≤ rest.length by omega),
      field_eq_slice (show 16 + 4 ≤ rest.length by omega), field_eq_slice (show 20 + 8 ≤ rest.length by omega),
      field_eq_slice (show 28 + 8 ≤ rest.length by omega), field_eq_slice (show 36 + 2 ≤ rest.length by omega)]
    simp only [bind, Except.bind, pure, Except.pure]
    have size : beNat (slice rest 36 2 (by omega)).bytes = nameLength rest long := rfl
    rw [size]
    by_cases tooLong : maxNameLen < nameLength rest long
    · rw [if_pos tooLong, if_pos tooLong]
    · by_cases cut : rest.length < 38 + nameLength rest long
      · rw [if_neg tooLong, if_neg tooLong, if_pos cut, if_pos cut]
      · -- both slices are within what the two checks left
        have range : sliceRange rest 38 (38 + nameLength rest long) = some ((rest.drop 38).take (nameLength rest long)) := by
          rw [sliceRange, if_pos ⟨by omega, by omega⟩, Nat.add_sub_cancel_left]
        have tail : sliceFrom rest (38 + nameLength rest long) = some (rest.drop (38 + nameLength rest long)) :=
          if_pos (by omega)
        rw [if_neg tooLong, if_neg tooLong, if_neg cut, if_neg cut, range, tail, Option.bind_some]
        cases String.fromUTF8? ⟨((rest.drop 38).take (nameLength rest long)).toArray⟩ with
        | none => rfl
        | some name => rfl

/-- Decoding takes no slice out of range. -/
theorem decodeEnvelopeSliced_eq (bytes : List UInt8) : decodeEnvelopeSliced bytes = some (decodeEnvelope bytes) := by
  cases bytes with
  | nil => rfl
  | cons version bytes =>
    by_cases known : version = envelopeVersion
    · cases bytes with
      | nil => simp [decodeEnvelopeSliced, decodeEnvelope, known]
      | cons kindCode bytes =>
        have afterKind : sliceFrom (version :: kindCode :: bytes) 2 = some bytes := if_pos (by simp)
        simp only [decodeEnvelopeSliced, decodeEnvelope, known, List.getElem?_cons_zero, List.getElem?_cons_succ, ne_eq,
          not_true_eq_false, if_false]
        rw [known] at afterKind
        cases read : RecordCode.fromCode kindCode with
        | none => rfl
        | some kind =>
          cases kind with
          | secret =>
            dsimp only
            rw [afterKind, Option.bind_some, decodeFieldsSliced_eq]
          | config =>
            cases bytes with
            | nil => rfl
            | cons code rest =>
              have afterFormat : sliceFrom (envelopeVersion :: kindCode :: code :: rest) 3 = some rest := if_pos (by simp)
              simp only [List.getElem?_cons_zero]
              cases readFormat : ConfigFormat.fromCode code with
              | none => rfl
              | some format =>
                dsimp only
                rw [afterFormat, Option.bind_some, decodeFieldsSliced_eq]
    · simp [decodeEnvelopeSliced, decodeEnvelope, known]

/-! ## What is accepted -/

theorem utf8_of_fromUTF8? {bytes : List UInt8} {name : String} (read : String.fromUTF8? ⟨bytes.toArray⟩ = some name) :
    utf8 name = bytes := by
  unfold String.fromUTF8? at read
  split at read
  · obtain rfl := Option.some.inj read
    rw [utf8_eq_data]
    rfl
  · cases read

/-- What is decoded from the fields encodes to them again. -/
theorem decodeFields_eq_ok {kind : RecordCode} {format : Option ConfigFormat} {rest : List UInt8} {d : Decoded}
    (decoded : decodeFields kind format rest = .ok d) :
    d.kind = kind ∧ d.format = format ∧ d.ctx.Fits ∧ (utf8 d.name).length ≤ maxNameLen ∧
      envelopeFields d.ctx d.name d.body = rest := by
  by_cases long : 38 ≤ rest.length
  · rw [decodeFields_of_long kind format long] at decoded
    split at decoded
    · cases decoded
    · next short =>
      split at decoded
      · cases decoded
      · next whole =>
        split at decoded
        · cases decoded
        · next name read =>
          obtain rfl := Except.ok.inj decoded
          have spelled := utf8_of_fromUTF8? read
          have size : (utf8 name).length = nameLength rest long := by
            rw [spelled, List.length_take, List.length_drop]
            omega
          refine ⟨rfl, rfl, contextOf_fits rest long, by rw [size]; omega, ?_⟩
          have body : utf8 name ++ rest.drop (38 + nameLength rest long) = rest.drop 38 := by
            rw [spelled, ← List.drop_drop, List.take_append_drop]
          unfold envelopeFields
          rw [size]
          simp only [contextOf, nameLength, beBytes_field, beBytesI64_field, List.append_assoc] at body ⊢
          rw [body, slice_append, slice_append, slice_append, slice_append, slice_append, List.drop_zero]
  · unfold decodeFields at decoded
    rw [if_pos (by omega)] at decoded
    cases decoded

theorem fromCode_eq_some {c : UInt8} {kind : RecordCode} (read : RecordCode.fromCode c = some kind) : kind.code = c := by
  have found := List.find?_some read
  simpa using found

theorem formatCode_eq_some {c : UInt8} {format : ConfigFormat} (read : ConfigFormat.fromCode c = some format) :
    format.code = c := by
  have found := List.find?_some read
  simpa using found

/-- A decoded envelope has a format exactly for a config. -/
def Formatted (kind : RecordCode) (format : Option ConfigFormat) : Prop := format.isSome = decide (kind = .config)

/-- What is decoded encodes to the bytes it was decoded from. -/
theorem encodeEnvelope_of_decodeEnvelope {bytes : List UInt8} {d : Decoded} (decoded : decodeEnvelope bytes = .ok d) :
    Formatted d.kind d.format ∧ d.ctx.Fits ∧ encodeEnvelope d.kind d.format d.ctx d.name d.body = .ok bytes := by
  unfold decodeEnvelope at decoded
  split at decoded
  · cases decoded
  · next version bytes =>
    split at decoded
    · cases decoded
    · next known =>
      rw [ne_eq, not_not] at known
      split at decoded
      · cases decoded
      · next kindCode bytes =>
        split at decoded
        · cases decoded
        · next read =>
          obtain ⟨kind, format, fits, short, fields⟩ := decodeFields_eq_ok decoded
          have code := fromCode_eq_some read
          refine ⟨by rw [Formatted, kind, format]; rfl, fits, ?_⟩
          rw [encodeEnvelope, if_neg (by omega), kind, format, known, ← fields, ← code]
          simp [envelopeFields]
        · next read =>
          split at decoded
          · cases decoded
          · next formatCode rest =>
            split at decoded
            · cases decoded
            · next f readFormat =>
              obtain ⟨kind, format, fits, short, fields⟩ := decodeFields_eq_ok decoded
              have code := fromCode_eq_some read
              have code' := formatCode_eq_some readFormat
              refine ⟨by rw [Formatted, kind, format]; rfl, fits, ?_⟩
              rw [encodeEnvelope, if_neg (by omega), kind, format, known, ← fields, ← code, ← code']
              simp [envelopeFields]

end GalataVault.Formats
