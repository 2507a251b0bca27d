import GalataVault.Proto.Contexts

/-!
# The bytes a descriptor is

A descriptor's signature and its hash are computed over a re-encoding of what was decoded.
Decoding accepts nothing but encodings: every byte is part of one field, and every field
spells its bytes again. So the re-encoding is the bytes that were served.
-/

namespace GalataVault.Formats

open Proto

/-! ## Fields -/

theorem beNat_lt (bytes : List UInt8) : beNat bytes < 256 ^ bytes.length := by
  induction bytes using List.reverseRecOn with
  | nil => decide
  | append_singleton bytes b inductionHypothesis =>
    have small := b.toNat_lt
    rw [beNat_append, List.length_append, List.length_singleton, pow_succ]
    omega

/-- A number spells the bytes it was read from. -/
theorem beBytes_beNat (bytes : List UInt8) : beBytes bytes.length (beNat bytes) = bytes := by
  induction bytes using List.reverseRecOn with
  | nil => rfl
  | append_singleton bytes b inductionHypothesis =>
    have small := b.toNat_lt
    have quotient : (beNat bytes * 256 + b.toNat) / 256 = beNat bytes := by omega
    have lowest : UInt8.ofNat (beNat bytes * 256 + b.toNat) = b := by
      apply UInt8.toNat_inj.mp
      rw [UInt8.toNat_ofNat']
      omega
    rw [beNat_append, List.length_append, List.length_singleton, beBytes, quotient, lowest, inductionHypothesis]

theorem beBytes_field {n : Nat} (field : FixedBytes n) : beBytes n (beNat field.bytes) = field.bytes := by
  have spelled := beBytes_beNat field.bytes
  rwa [field.size] at spelled

theorem beNat_field_lt {n : Nat} (field : FixedBytes n) : beNat field.bytes < 256 ^ n := by
  have below := beNat_lt field.bytes
  rwa [field.size] at below

theorem beI64_bounds (field : FixedBytes 8) : -2 ^ 63 ≤ beI64 field.bytes ∧ beI64 field.bytes < 2 ^ 63 := by
  have below := beNat_field_lt field
  unfold beI64
  dsimp only
  split <;> omega

theorem beBytesI64_field (field : FixedBytes 8) : beBytesI64 (beI64 field.bytes) = field.bytes := by
  have below := beNat_field_lt field
  have number : (beI64 field.bytes % 2 ^ 64).toNat = beNat field.bytes := by
    unfold beI64
    dsimp only
    split <;> omega
  rw [beBytesI64, number, beBytes_field]

/-! ## Descriptors -/

/-- The field of `width` bytes from `start`. -/
def slice (bytes : List UInt8) (start width : Nat) (inside : start + width ≤ bytes.length) : FixedBytes width :=
  ⟨(bytes.drop start).take width, by rw [List.length_take, List.length_drop]; omega⟩

theorem take_eq_slice {bytes : List UInt8} {start width : Nat} (inside : start + width ≤ bytes.length) :
    take bytes start width = .ok (slice bytes start width inside) := by
  unfold take
  exact dif_pos (slice bytes start width inside).size

/-- A field and what follows it. -/
theorem slice_append {bytes : List UInt8} {start width : Nat} (inside : start + width ≤ bytes.length) :
    (slice bytes start width inside).bytes ++ bytes.drop (start + width) = bytes.drop start := by
  rw [slice, ← List.drop_drop, List.take_append_drop]

/-- Decoding accepts exactly the encodings of descriptors whose numbers fit their fields. -/
theorem decode_eq_ok_iff {bytes : List UInt8} {d : Descriptor} :
    Descriptor.decode bytes = .ok d ↔ (Statement.descriptor d).Sized ∧ d.encode = bytes := by
  constructor
  · intro decoded
    cases bytes with
    | nil => cases decoded
    | cons version rest =>
      unfold Descriptor.decode at decoded
      simp only [List.head?_cons] at decoded
      split at decoded
      · cases decoded
      · next known =>
        split at decoded
        · cases decoded
        · next long =>
          rw [ne_eq, not_not] at known long
          have size : (version :: rest).length = 189 := long
          generalize whole : version :: rest = bytes at decoded size
          have inside : ∀ start width, start + width ≤ 189 → start + width ≤ bytes.length := fun _ _ h => size ▸ h
          rw [take_eq_slice (inside 1 16 (by decide)), take_eq_slice (inside 17 4 (by decide)),
            take_eq_slice (inside 21 32 (by decide)), take_eq_slice (inside 53 32 (by decide)),
            take_eq_slice (inside 85 32 (by decide)), take_eq_slice (inside 117 32 (by decide)),
            take_eq_slice (inside 149 32 (by decide)), take_eq_slice (inside 181 8 (by decide))] at decoded
          obtain rfl := Except.ok.inj decoded
          refine ⟨⟨beNat_field_lt _, beI64_bounds _⟩, ?_⟩
          have ended : bytes.drop 189 = [] := List.drop_eq_nil_of_le (by omega)
          have last := slice_append (inside 181 8 (by decide))
          rw [ended, List.append_nil] at last
          have first : descriptorVersion :: bytes.drop 1 = bytes := by rw [← whole, ← known, List.drop_one, List.tail_cons]
          simp only [Descriptor.encode, beBytes_field, beBytesI64_field, List.cons_append, List.append_assoc]
          rw [last, slice_append, slice_append, slice_append, slice_append, slice_append, slice_append, slice_append,
            first]
  · rintro ⟨⟨generation, low, high⟩, rfl⟩
    exact decode_encode d generation low high

section

variable [Digests] [Ed25519]

omit [Digests] in
/-- Verification accepts exactly a signature over the bytes that were served. -/
theorem verify_eq_ok_iff {served : SignedDescriptor} {ownerSignPub : Key32} {d : Descriptor} :
    served.verify ownerSignPub = .ok d ↔
      (Statement.descriptor d).Sized ∧ d.encode = served.descriptor.bytes ∧
        Ed25519.verifyStrict ownerSignPub (frame Label.descriptor [served.descriptor.bytes]) served.sig = true := by
  unfold SignedDescriptor.verify verifyEd25519
  cases decoded : Descriptor.decode served.descriptor.bytes with
  | error e =>
    have refused : ¬ ((Statement.descriptor d).Sized ∧ d.encode = served.descriptor.bytes) := by
      intro accepted
      rw [decode_eq_ok_iff.mpr accepted] at decoded
      cases decoded
    constructor
    · intro impossible
      cases impossible
    · exact fun parts => absurd ⟨parts.1, parts.2.1⟩ refused
  | ok d' =>
    obtain ⟨sized, encoded⟩ := decode_eq_ok_iff.mp decoded
    have signed : d'.signingInput = frame Label.descriptor [served.descriptor.bytes] := by
      rw [Descriptor.signingInput, encoded]
    change ((if Ed25519.verifyStrict ownerSignPub d'.signingInput served.sig then Except.ok ()
      else .error (IntegrityError.badSignature "descriptor")) >>= fun _ => pure d') = _ ↔ _
    rw [signed]
    constructor
    · intro accepted
      split at accepted
      · next covers =>
        obtain rfl := Except.ok.inj accepted
        exact ⟨sized, encoded, covers⟩
      · cases accepted
    · rintro ⟨fits, same, covers⟩
      have again := decode_eq_ok_iff.mpr ⟨fits, same⟩
      rw [decoded] at again
      obtain rfl := Except.ok.inj again
      rw [if_pos covers]
      rfl

/-- **Descriptors are their bytes.** A descriptor is read back from its encoding, decoding
accepts nothing but encodings, a descriptor that verifies is signed in the very bytes that
were served, and its hash is theirs. -/
theorem descriptor_bytes_exact :
    (∀ d : Descriptor, (Statement.descriptor d).Sized → Descriptor.decode d.encode = .ok d) ∧
      (∀ (bytes : List UInt8) (d : Descriptor),
        Descriptor.decode bytes = .ok d ↔ (Statement.descriptor d).Sized ∧ d.encode = bytes) ∧
      (∀ (served : SignedDescriptor) (ownerSignPub : Key32) (d : Descriptor),
        served.verify ownerSignPub = .ok d ↔
          Descriptor.decode served.descriptor.bytes = .ok d ∧
            Ed25519.verifyStrict ownerSignPub (frame Label.descriptor [served.descriptor.bytes]) served.sig = true) ∧
      ∀ (served : SignedDescriptor) (ownerSignPub : Key32) (d : Descriptor),
        served.verify ownerSignPub = .ok d → d.hash = Digests.sha256 served.descriptor.bytes := by
  refine ⟨fun d sized => decode_eq_ok_iff.mpr ⟨sized, rfl⟩, fun _ _ => decode_eq_ok_iff, ?_, ?_⟩
  · intro served ownerSignPub d
    rw [verify_eq_ok_iff, decode_eq_ok_iff, and_assoc]
  · intro served ownerSignPub d accepted
    rw [Descriptor.hash, (verify_eq_ok_iff.mp accepted).2.1]

end

end GalataVault.Formats
