import GalataVault.Proto.History
import GalataVault.Proto.Signing

/-!
# Reading back what was encoded

Every encoding of the protocol can be decoded again: numbers within their width,
texts, and descriptors field by field.
-/

namespace GalataVault.Proto

@[simp] theorem FixedBytes.length_bytes {n : Nat} (b : FixedBytes n) : b.bytes.length = n := b.size

/-! ## Numbers and texts -/

theorem beNat_append (bytes : List UInt8) (b : UInt8) : beNat (bytes ++ [b]) = beNat bytes * 256 + b.toNat := by
  simp [beNat]

theorem beNat_beBytes (width n : Nat) : beNat (beBytes width n) = n % 256 ^ width := by
  induction width generalizing n with
  | zero => simp [beBytes, beNat, Nat.mod_one]
  | succ width inductionHypothesis =>
    have lowest : (UInt8.ofNat n).toNat = n % 256 := by simp
    rw [beBytes, beNat_append, inductionHypothesis, lowest, Nat.pow_succ, Nat.mul_comm (256 ^ width), Nat.mod_mul,
      Nat.mul_comm, Nat.add_comm]

theorem beNat_beBytes_of_lt {width n : Nat} (small : n < 256 ^ width) : beNat (beBytes width n) = n := by
  rw [beNat_beBytes, Nat.mod_eq_of_lt small]

theorem beI64_beBytesI64 {i : Int} (low : -2 ^ 63 ≤ i) (high : i < 2 ^ 63) : beI64 (beBytesI64 i) = i := by
  have width : (256 : Nat) ^ 8 = 2 ^ 64 := by decide
  have digits : beNat (beBytesI64 i) = (i % 2 ^ 64).toNat := by
    apply beNat_beBytes_of_lt
    rw [width]
    omega
  unfold beI64
  rw [digits]
  dsimp only
  split <;> omega

theorem toList_loop (bytes : ByteArray) (i : Nat) (taken : List UInt8) :
    ByteArray.toList.loop bytes i taken = taken.reverse ++ bytes.data.toList.drop i := by
  unfold ByteArray.toList.loop
  split
  · next more =>
    have inside : i < bytes.data.toList.length := by
      rw [Array.length_toList]
      exact more
    rw [toList_loop bytes (i + 1), List.drop_eq_getElem_cons inside]
    have same : bytes.get! i = bytes.data.toList[i] := getElem!_pos bytes.data i more
    rw [same, List.reverse_cons, List.append_assoc]
    rfl
  · next done =>
    have outside : bytes.data.toList.length ≤ i := by
      rw [Array.length_toList]
      exact Nat.le_of_not_lt done
    rw [List.drop_eq_nil_of_le outside, List.append_nil]
termination_by bytes.size - i

/-- A text is read back from its bytes. -/
theorem fromUTF8?_utf8 (text : String) : String.fromUTF8? ⟨(utf8 text).toArray⟩ = some text := by
  have listed : (utf8 text).toArray = text.toByteArray.data := by
    simp [utf8, ByteArray.toList, toList_loop]
  have same : (⟨(utf8 text).toArray⟩ : ByteArray) = text.toByteArray := by rw [listed]
  rw [same, String.fromUTF8?, dif_pos text.isValidUTF8]
  rfl

/-! ## Descriptors -/

theorem take_skip {skipped rest : List UInt8} {start width : Nat} (past : skipped.length ≤ start) :
    take (skipped ++ rest) start width = take rest (start - skipped.length) width := by
  unfold take
  rw [List.drop_append, List.drop_eq_nil_of_le past, List.nil_append]

theorem take_cons {b : UInt8} {rest : List UInt8} {start width : Nat} (past : 0 < start) :
    take (b :: rest) start width = take rest (start - 1) width :=
  take_skip (show [b].length ≤ start from past)

theorem take_here {width : Nat} (chunk : FixedBytes width) (rest : List UInt8) :
    take (chunk.bytes ++ rest) 0 width = .ok chunk := by
  have same : ((chunk.bytes ++ rest).drop 0).take width = chunk.bytes := by
    rw [List.drop_zero, List.take_left' chunk.size]
  unfold take
  simp only [same, chunk.size, dite_true]

theorem take_last {width : Nat} (chunk : FixedBytes width) : take chunk.bytes 0 width = .ok chunk := by
  have here := take_here chunk []
  rwa [List.append_nil] at here

/-- A descriptor whose numbers fit their fields is decoded from its encoding. -/
theorem decode_encode (d : Descriptor) (generation : d.generation < 2 ^ 32) (low : -2 ^ 63 ≤ d.createdAt)
    (high : d.createdAt < 2 ^ 63) : Descriptor.decode d.encode = .ok d := by
  have long : d.encode.length = descriptorLen := by simp [Descriptor.encode, beBytes_length, beBytesI64, descriptorLen]
  obtain ⟨generationField, generationBytes⟩ : ∃ f : FixedBytes 4, f.bytes = beBytes 4 d.generation :=
    ⟨⟨_, beBytes_length 4 _⟩, rfl⟩
  obtain ⟨timeField, timeBytes⟩ : ∃ f : FixedBytes 8, f.bytes = beBytesI64 d.createdAt :=
    ⟨⟨_, beBytes_length 8 _⟩, rfl⟩
  have number : beNat generationField.bytes = d.generation := by
    rw [generationBytes, beNat_beBytes_of_lt (by omega)]
  have time : beI64 timeField.bytes = d.createdAt := by rw [timeBytes, beI64_beBytesI64 low high]
  have encoded : d.encode = [descriptorVersion] ++ (d.vaultId.raw.bytes ++ (generationField.bytes ++
      (d.vaultPub.raw.bytes ++ (d.configPub.raw.bytes ++ (d.secretWriterPub.raw.bytes ++
        (d.configWriterPub.raw.bytes ++ (d.prevHash.raw.bytes ++ (timeField.bytes ++ [])))))))) := by
    simp [Descriptor.encode, generationBytes, timeBytes]
  unfold Descriptor.decode
  rw [if_neg (by rw [long]; simp)]
  rw [encoded]
  simp [take_cons, take_skip, take_here, take_last, bind, Except.bind, pure, Except.pure,
    number, time]

end GalataVault.Proto
