import Mathlib.Data.Nat.Prime.Basic
import GalataVault.Library.Radix
import GalataVault.Proto.Lines

/-!
# Fixed-width base62

Bytes are written as a fixed number of base62 characters: the bytes are divided by 62 once
for every character, last character first, and multiplied by 62 again for every character
read. The width is computed in machine integers from a truncated logarithm of 62. It is
always wide enough, and the narrowest that is for every length a key or token has, but from
some length on it is one character wider.
-/

namespace GalataVault.Formats

open Proto

/-! ## The code -/

inductive FormatError where
  | wrongPrefix (expected : String)
  | unknownVersion (found : Char)
  | wrongLength (expected got : Nat)
  | badCharacter (position : Nat)
  | checksum
  | overflow
  | hex (expected : Nat)
  | base64
deriving DecidableEq

def alphabet : List UInt8 :=
  "0123456789ABCDEFGHIJKLMNOPQRSTUVWXYZabcdefghijklmnopqrstuvwxyz".toList.map fun c => UInt8.ofNat c.toNat

/-- Characters needed to hold `nBytes` bytes. The product is a machine integer. -/
def widthFor (nBytes : Nat) : Nat := (nBytes * 8 * 1000000000 % 2 ^ 64 + 5954196309) / 5954196310

/-- The digit of the alphabet at `n`. -/
def digitAt (n : Nat) : UInt8 := alphabet.getD n 0

/-- One pass of long division by 62 over big-endian bytes. -/
def divideBy62 : Nat → List UInt8 → List UInt8 × Nat
  | rem, [] => ([], rem)
  | rem, b :: rest =>
    let acc := rem * 256 + b.toNat
    let divided := divideBy62 (acc % 62) rest
    (UInt8.ofNat (acc / 62) :: divided.1, divided.2)

/-- The loop of `encode_fixed`, over the slots from the last one on. -/
def encodeLoop : Nat → List UInt8 → List UInt8 → List UInt8
  | 0, _, out => out
  | slots + 1, num, out =>
    let divided := divideBy62 0 num
    encodeLoop slots divided.1 (digitAt divided.2 :: out)

/-- The text whose characters are the bytes. -/
def asciiText (bytes : List UInt8) : String := String.ofList (bytes.map fun b => Char.ofNat b.toNat)

/-- Big-endian bytes as exactly `widthFor bytes.length` base62 characters. -/
def encodeFixed (bytes : List UInt8) : String := asciiText (encodeLoop (widthFor bytes.length) bytes [])

def digit (c : UInt8) : Option Nat :=
  if 48 ≤ c ∧ c ≤ 57 then some (c.toNat - 48)
  else if 65 ≤ c ∧ c ≤ 90 then some (c.toNat - 65 + 10)
  else if 97 ≤ c ∧ c ≤ 122 then some (c.toNat - 97 + 36)
  else none

/-- Multiply the bytes by 62 and add `carry`, from the last byte back. -/
def multiplyBy62 (carry : Nat) : List UInt8 → List UInt8 × Nat
  | [] => ([], carry)
  | b :: rest =>
    let multiplied := multiplyBy62 carry rest
    let acc := b.toNat * 62 + multiplied.2
    (UInt8.ofNat (acc % 256) :: multiplied.1, acc / 256)

/-- The loop of `decode_fixed`, over the characters from `position` on. -/
def decodeLoop (position : Nat) (num : List UInt8) : List UInt8 → Except FormatError (List UInt8)
  | [] => .ok num
  | c :: rest =>
    match digit c with
    | none => .error (.badCharacter position)
    | some d =>
      let multiplied := multiplyBy62 d num
      if multiplied.2 ≠ 0 then .error .overflow else decodeLoop (position + 1) multiplied.1 rest

/-- The inverse of `encodeFixed`. Refuses any width but the exact one, and any value that
does not fit. -/
def decodeFixed (s : String) (nBytes : Nat) : Except FormatError (List UInt8) :=
  let width := widthFor nBytes
  if (utf8 s).length ≠ width then .error (.wrongLength width (utf8 s).length)
  else decodeLoop 0 (List.replicate nBytes 0) (utf8 s)

/-! ## Characters and digits -/

theorem digitAt_ascii : ∀ n < 62, (digitAt n).toNat < 128 := by decide +kernel

theorem digit_digitAt : ∀ n < 62, digit (digitAt n) = some n := by decide +kernel

theorem digit_eq_some {c : UInt8} {d : Nat} (stands : digit c = some d) : d < 62 ∧ digitAt d = c := by
  have all : ∀ n < 256, ∀ d, digit (UInt8.ofNat n) = some d → d < 62 ∧ digitAt d = UInt8.ofNat n := by
    have each : ∀ n < 256, ∀ d ∈ digit (UInt8.ofNat n), d < 62 ∧ digitAt d = UInt8.ofNat n := by decide +kernel
    exact fun n small d read => each n small d read
  have found := all c.toNat c.toNat_lt d
  rw [UInt8.ofNat_toNat] at found
  exact found stands

/-- Bytes below 128 are their own text. -/
theorem utf8_asciiText {bytes : List UInt8} (ascii : ∀ b ∈ bytes, b.toNat < 128) : utf8 (asciiText bytes) = bytes := by
  have each : ∀ n < 128, String.utf8EncodeChar (Char.ofNat n) = [UInt8.ofNat n] := by decide +kernel
  rw [utf8_eq_data, asciiText, String.toByteArray_ofList, List.utf8Encode]
  induction bytes with
  | nil => rfl
  | cons b rest inductionHypothesis =>
    simp only [List.forall_mem_cons] at ascii
    have tail := inductionHypothesis ascii.2
    simp only [List.data_toByteArray, List.toList_toArray] at tail ⊢
    rw [List.map_cons, List.flatMap_cons, each _ ascii.1, tail, UInt8.ofNat_toNat]
    rfl

theorem asciiText_utf8 {s : String} (ascii : ∀ b ∈ utf8 s, b.toNat < 128) : asciiText (utf8 s) = s :=
  utf8_injective (utf8_asciiText ascii)

theorem asciiText_length (bytes : List UInt8) : (asciiText bytes).length = bytes.length := by simp [asciiText]

/-- The number the bytes spell. -/
def number (bytes : List UInt8) : Nat := Radix.value 256 (bytes.map UInt8.toNat)

theorem toNat_small (bytes : List UInt8) : ∀ d ∈ bytes.map UInt8.toNat, d < 256 := by
  simp only [List.forall_mem_map]
  exact fun b _ => b.toNat_lt

theorem number_lt (bytes : List UInt8) : number bytes < 256 ^ bytes.length := by
  have below := Radix.value_lt (by decide) (toNat_small bytes)
  rwa [List.length_map] at below

theorem number_injective {left right : List UInt8} (size : left.length = right.length)
    (same : number left = number right) : left = right := by
  have digits : left.map UInt8.toNat = right.map UInt8.toNat :=
    Radix.value_injective (by decide) (by simpa using size) (toNat_small left) (toNat_small right) same
  exact List.map_injective_iff.mpr (fun _ _ => UInt8.toNat_inj.mp) digits

/-! ## Encoding -/

/-- The division over bytes is the division over their values. -/
theorem divideBy62_toNat {rem : Nat} (below : rem < 62) (num : List UInt8) :
    ((divideBy62 rem num).1.map UInt8.toNat, (divideBy62 rem num).2) = Radix.divide 256 62 rem (num.map UInt8.toNat) := by
  induction num generalizing rem with
  | nil => rfl
  | cons b rest inductionHypothesis =>
    have bounded := b.toNat_lt
    have tail := inductionHypothesis (Nat.mod_lt (rem * 256 + b.toNat) (by decide))
    have first : (UInt8.ofNat ((rem * 256 + b.toNat) / 62)).toNat = (rem * 256 + b.toNat) / 62 := by
      rw [UInt8.toNat_ofNat', Nat.mod_eq_of_lt (by omega)]
    rw [List.map_cons, Radix.divide, ← tail, divideBy62, List.map_cons, first]

theorem divideBy62_rem (num : List UInt8) : (divideBy62 0 num).2 = number num % 62 := by
  rw [number, ← Radix.divide_rem (by decide), ← divideBy62_toNat (by decide)]

theorem divideBy62_quotient (num : List UInt8) : number (divideBy62 0 num).1 = number num / 62 := by
  have whole := divideBy62_toNat (show 0 < 62 by decide) num
  rw [number, number, ← Radix.divide_quotient (by decide), ← whole]

/-- The loop writes the digits of the number in front of what is there. -/
theorem encodeLoop_eq (slots : Nat) (num out : List UInt8) :
    encodeLoop slots num out = (Radix.digits 62 slots (number num)).map digitAt ++ out := by
  induction slots generalizing num out with
  | zero => rfl
  | succ slots inductionHypothesis =>
    rw [encodeLoop, inductionHypothesis, divideBy62_quotient, divideBy62_rem, Radix.digits, List.map_append,
      List.append_assoc]
    rfl

/-- The characters of an encoding, as bytes. -/
def encodedBytes (bytes : List UInt8) : List UInt8 := (Radix.digits 62 (widthFor bytes.length) (number bytes)).map digitAt

theorem encodeFixed_eq (bytes : List UInt8) : encodeFixed bytes = asciiText (encodedBytes bytes) := by
  rw [encodeFixed, encodeLoop_eq, List.append_nil, encodedBytes]

theorem map_digitAt_ascii {digits : List Nat} (small : ∀ d ∈ digits, d < 62) :
    ∀ b ∈ digits.map digitAt, b.toNat < 128 := by
  simp only [List.forall_mem_map]
  exact fun d stands => digitAt_ascii d (small d stands)

theorem encodedBytes_ascii (bytes : List UInt8) : ∀ b ∈ encodedBytes bytes, b.toNat < 128 :=
  map_digitAt_ascii (Radix.digits_small (by decide) _ _)

@[simp] theorem encodedBytes_length (bytes : List UInt8) : (encodedBytes bytes).length = widthFor bytes.length := by
  simp [encodedBytes]

theorem utf8_encodeFixed (bytes : List UInt8) : utf8 (encodeFixed bytes) = encodedBytes bytes := by
  rw [encodeFixed_eq, utf8_asciiText (encodedBytes_ascii bytes)]

/-! ## Decoding -/

/-- The multiplication over bytes is the multiplication over their values. -/
theorem multiplyBy62_toNat (carry : Nat) (num : List UInt8) :
    ((multiplyBy62 carry num).1.map UInt8.toNat, (multiplyBy62 carry num).2) =
      Radix.multiplyAdd 256 62 carry (num.map UInt8.toNat) := by
  induction num with
  | nil => rfl
  | cons b rest inductionHypothesis =>
    have first : ∀ acc : Nat, (UInt8.ofNat (acc % 256)).toNat = acc % 256 := by
      intro acc
      rw [UInt8.toNat_ofNat', Nat.mod_mod]
    rw [List.map_cons, Radix.multiplyAdd, ← inductionHypothesis, multiplyBy62, List.map_cons, first]

@[simp] theorem multiplyBy62_length (carry : Nat) (num : List UInt8) : (multiplyBy62 carry num).1.length = num.length := by
  induction num with
  | nil => rfl
  | cons b rest inductionHypothesis => simp [multiplyBy62, inductionHypothesis]

/-- Nothing is carried out exactly when the result fits the bytes. -/
theorem multiplyBy62_fits_iff (carry : Nat) (num : List UInt8) :
    (multiplyBy62 carry num).2 = 0 ↔ number num * 62 + carry < 256 ^ num.length := by
  have fits := @Radix.multiplyAdd_carry_eq_zero_iff 256 (by decide) 62 carry (num.map UInt8.toNat)
  rwa [← multiplyBy62_toNat, List.length_map] at fits

theorem number_multiplyBy62 {carry : Nat} {num : List UInt8} (fits : (multiplyBy62 carry num).2 = 0) :
    number (multiplyBy62 carry num).1 = number num * 62 + carry := by
  have same := multiplyBy62_toNat carry num
  have value := @Radix.multiplyAdd_fits 256 62 carry (num.map UInt8.toNat)
  rw [← same] at value
  exact value fits

/-- The number that base62 characters spell after a number; none where one of them is no
digit. -/
def numeralFrom (n : Nat) : List UInt8 → Option Nat
  | [] => some n
  | c :: rest => (digit c).bind fun d => numeralFrom (n * 62 + d) rest

/-- The number a base62 text spells. -/
def numeral (text : List UInt8) : Option Nat := numeralFrom 0 text

theorem numeralFrom_cons {n d : Nat} {c : UInt8} {rest : List UInt8} (stands : digit c = some d) :
    numeralFrom n (c :: rest) = numeralFrom (n * 62 + d) rest := by
  rw [numeralFrom, stands]
  rfl

/-- A text that spells a number consists of digits, and the number is theirs. -/
theorem numeralFrom_eq_some_iff {n m : Nat} {text : List UInt8} :
    numeralFrom n text = some m ↔
      ∃ digits, (∀ d ∈ digits, d < 62) ∧ text = digits.map digitAt ∧ m = n * 62 ^ text.length + Radix.value 62 digits := by
  induction text generalizing n with
  | nil => simp [numeralFrom, eq_comm]
  | cons c rest inductionHypothesis =>
    constructor
    · intro spells
      obtain ⟨d, stands, more⟩ := Option.bind_eq_some_iff.mp spells
      obtain ⟨digits, small, rfl, rfl⟩ := inductionHypothesis.mp more
      obtain ⟨below, same⟩ := digit_eq_some stands
      refine ⟨d :: digits, List.forall_mem_cons.mpr ⟨below, small⟩, by rw [List.map_cons, same], ?_⟩
      rw [Radix.value_cons, List.length_cons, List.length_map, pow_succ]
      ring
    · rintro ⟨digits, small, same, rfl⟩
      cases digits with
      | nil => cases same
      | cons d digits =>
        obtain ⟨rfl, rfl⟩ := List.cons.inj same
        simp only [List.forall_mem_cons] at small
        rw [numeralFrom_cons (digit_digitAt d small.1), inductionHypothesis]
        refine ⟨digits, small.2, rfl, ?_⟩
        rw [Radix.value_cons, List.length_cons, List.length_map, pow_succ]
        ring

theorem numeralFrom_le {n m : Nat} {text : List UInt8} (spells : numeralFrom n text = some m) : n ≤ m := by
  obtain ⟨digits, _, _, rfl⟩ := numeralFrom_eq_some_iff.mp spells
  exact Nat.le_trans (Nat.le_mul_of_pos_right n (by positivity)) (Nat.le_add_right _ _)

theorem numeral_lt {m : Nat} {text : List UInt8} (spells : numeral text = some m) : m < 62 ^ text.length := by
  obtain ⟨digits, small, rfl, rfl⟩ := numeralFrom_eq_some_iff.mp spells
  have below := Radix.value_lt (by decide) small
  rwa [List.length_map, Nat.zero_mul, Nat.zero_add]

/-- The loop succeeds exactly on base62 characters whose number fits, and returns it. -/
theorem decodeLoop_eq_ok_iff {position : Nat} {num text out : List UInt8} :
    decodeLoop position num text = .ok out ↔
      ∃ m, numeralFrom (number num) text = some m ∧ m < 256 ^ num.length ∧ out.length = num.length ∧ number out = m := by
  induction text generalizing position num with
  | nil =>
    simp only [decodeLoop, numeralFrom, Option.some.injEq, exists_eq_left', Except.ok.injEq]
    constructor
    · rintro rfl
      exact ⟨number_lt num, rfl, rfl⟩
    · rintro ⟨_, size, same⟩
      exact (number_injective size same).symm
  | cons c rest inductionHypothesis =>
    rw [decodeLoop]
    cases stands : digit c with
    | none => simp [numeralFrom, stands]
    | some d =>
      dsimp only
      rw [numeralFrom_cons stands]
      split
      · next carried =>
        rw [ne_eq, multiplyBy62_fits_iff] at carried
        constructor
        · intro impossible
          cases impossible
        · rintro ⟨m, spells, below, _⟩
          exact absurd (Nat.lt_of_le_of_lt (numeralFrom_le spells) below) carried
      · next fits =>
        rw [ne_eq, not_not] at fits
        rw [inductionHypothesis, number_multiplyBy62 fits, multiplyBy62_length]

/-- The loop reports an overflow exactly when some of the first characters spell a number
that does not fit, whatever stands after them. -/
theorem decodeLoop_eq_overflow_iff {position : Nat} {num text : List UInt8} :
    decodeLoop position num text = .error .overflow ↔
      ∃ k ≤ text.length, ∃ m, numeralFrom (number num) (text.take k) = some m ∧ 256 ^ num.length ≤ m := by
  induction text generalizing position num with
  | nil =>
    have below := number_lt num
    simp only [decodeLoop, List.length_nil, Nat.le_zero, exists_eq_left, List.take_nil, numeralFrom, Option.some.injEq,
      exists_eq_left', reduceCtorEq, false_iff]
    omega
  | cons c rest inductionHypothesis =>
    have below := number_lt num
    rw [decodeLoop]
    cases stands : digit c with
    | none =>
      simp only [Except.error.injEq, reduceCtorEq, false_iff]
      rintro ⟨k, _, m, spells, large⟩
      cases k with
      | zero =>
        cases Option.some.inj spells
        omega
      | succ k => simp [numeralFrom, stands] at spells
    | some d =>
      dsimp only
      split
      · next carried =>
        rw [ne_eq, multiplyBy62_fits_iff, Nat.not_lt] at carried
        refine iff_of_true rfl ⟨1, by simp, number num * 62 + d, ?_, carried⟩
        rw [List.take_succ_cons, List.take_zero, numeralFrom_cons stands, numeralFrom]
      · next fits =>
        rw [ne_eq, not_not] at fits
        rw [inductionHypothesis, number_multiplyBy62 fits, multiplyBy62_length]
        constructor
        · rintro ⟨k, inside, m, spells, large⟩
          refine ⟨k + 1, by simpa using inside, m, ?_, large⟩
          rwa [List.take_succ_cons, numeralFrom_cons stands]
        · rintro ⟨k, inside, m, spells, large⟩
          cases k with
          | zero =>
            cases Option.some.inj spells
            omega
          | succ k =>
            rw [List.take_succ_cons, numeralFrom_cons stands] at spells
            exact ⟨k, by simpa using inside, m, spells, large⟩

/-! ## The fixed width -/

/-- The product `widthFor` computes is held by a machine integer. -/
def WidthFits (nBytes : Nat) : Prop := nBytes * 8 * 1000000000 < 2 ^ 64

theorem number_zeros (n : Nat) : number (List.replicate n 0) = 0 := by
  induction n with
  | zero => rfl
  | succ n inductionHypothesis =>
    rw [number, List.replicate_succ, List.map_cons, Radix.value_cons]
    simpa [number] using inductionHypothesis

/-- `62 ^ 67047` bounds `2 ^ 399211`, and the quotient of the exponents is not below the
logarithm that the width is computed with. -/
theorem logarithm_bound : 2 ^ 399211 ≤ 62 ^ 67047 := by decide +kernel

/-- A bound of one power of two by a power of 62 bounds all powers whose exponents are in
that proportion. -/
theorem pow_le_of_proportion {a b n w : Nat} (positive : a ≠ 0) (bound : 2 ^ b ≤ 62 ^ a) (enough : n * 8 * a ≤ w * b) :
    256 ^ n ≤ 62 ^ w := by
  have powers : (256 ^ n) ^ a ≤ (62 ^ w) ^ a := by
    calc (256 ^ n) ^ a = 2 ^ (n * 8 * a) := by
          rw [show 256 = 2 ^ 8 by rfl, ← pow_mul, ← pow_mul, ← Nat.mul_assoc, Nat.mul_comm 8 n]
      _ ≤ 2 ^ (w * b) := Nat.pow_le_pow_right (by decide) enough
      _ = (2 ^ b) ^ w := by rw [← pow_mul, Nat.mul_comm]
      _ ≤ (62 ^ a) ^ w := Nat.pow_le_pow_left bound w
      _ = (62 ^ w) ^ a := by rw [← pow_mul, ← pow_mul, Nat.mul_comm]
  exact (Nat.pow_le_pow_iff_left positive).mp powers

/-- The width holds every byte string of its length. -/
theorem widthFor_covers {n : Nat} (fits : WidthFits n) : 256 ^ n ≤ 62 ^ widthFor n := by
  have exact : widthFor n = (n * 8 * 1000000000 + 5954196309) / 5954196310 := by
    unfold WidthFits at fits
    rw [widthFor, Nat.mod_eq_of_lt fits]
  exact pow_le_of_proportion (by decide) logarithm_bound (by omega)

/-- Decoding succeeds exactly on the encoding of what it returns. -/
theorem decodeFixed_eq_ok_iff {n : Nat} (fits : WidthFits n) {s : String} {bytes : List UInt8} :
    decodeFixed s n = .ok bytes ↔ bytes.length = n ∧ s = encodeFixed bytes := by
  unfold decodeFixed
  dsimp only
  constructor
  · intro decoded
    split at decoded
    · cases decoded
    · next wide =>
      rw [ne_eq, not_not] at wide
      obtain ⟨m, spells, _, size, same⟩ := decodeLoop_eq_ok_iff.mp decoded
      rw [number_zeros] at spells
      obtain ⟨digits, small, text, rfl⟩ := numeralFrom_eq_some_iff.mp spells
      rw [List.length_replicate] at size
      rw [Nat.zero_mul, Nat.zero_add] at same
      have characters : encodedBytes bytes = utf8 s := by
        rw [encodedBytes, size, same, ← wide, text, List.length_map, Radix.digits_value (by decide) small]
      have ascii : ∀ b ∈ utf8 s, b.toNat < 128 := by
        rw [text]
        exact map_digitAt_ascii small
      rw [encodeFixed_eq, characters, asciiText_utf8 ascii]
      exact ⟨size, rfl⟩
  · rintro ⟨rfl, rfl⟩
    rw [utf8_encodeFixed, if_neg (by simp), decodeLoop_eq_ok_iff, number_zeros]
    have room : number bytes < 62 ^ widthFor bytes.length := Nat.lt_of_lt_of_le (number_lt bytes) (widthFor_covers fits)
    refine ⟨number bytes, ?_, by simpa using number_lt bytes, by simp, rfl⟩
    apply numeralFrom_eq_some_iff.mpr
    refine ⟨_, Radix.digits_small (by decide) _ _, rfl, ?_⟩
    rw [Radix.value_digits, Nat.mod_eq_of_lt room, Nat.zero_mul, Nat.zero_add]

theorem encodeFixed_injective {left right : List UInt8} (fits : WidthFits left.length) (size : left.length = right.length)
    (same : encodeFixed left = encodeFixed right) : left = right := by
  have decoded : decodeFixed (encodeFixed left) left.length = .ok left := (decodeFixed_eq_ok_iff fits).mpr ⟨rfl, rfl⟩
  rw [same, size, (decodeFixed_eq_ok_iff (size ▸ fits)).mpr ⟨rfl, rfl⟩] at decoded
  exact (Except.ok.inj decoded).symm

/-- Decoding reports an overflow exactly when a text of the right width begins with
characters that spell a number that does not fit. -/
theorem decodeFixed_eq_overflow_iff {n : Nat} {s : String} :
    decodeFixed s n = .error .overflow ↔
      (utf8 s).length = widthFor n ∧
        ∃ k ≤ widthFor n, ∃ m, numeral ((utf8 s).take k) = some m ∧ 256 ^ n ≤ m := by
  unfold decodeFixed
  dsimp only
  split
  · next narrow =>
    simp only [Except.error.injEq, reduceCtorEq, false_iff, not_and]
    exact fun wide => absurd wide narrow
  · next wide =>
    rw [ne_eq, not_not] at wide
    simp only [decodeLoop_eq_overflow_iff, number_zeros, List.length_replicate, wide, numeral, true_and]

/-- What the fixed width promises of byte strings of one length: they are read back, their
encodings have that width, and nothing but their encodings is read. -/
structure Exact (n : Nat) : Prop where
  roundTrip : ∀ bytes : List UInt8, bytes.length = n → decodeFixed (encodeFixed bytes) n = .ok bytes
  width : ∀ bytes : List UInt8, bytes.length = n → (encodeFixed bytes).length = widthFor n
  accepted : ∀ (s : String) (bytes : List UInt8),
    decodeFixed s n = .ok bytes ↔ bytes.length = n ∧ s = encodeFixed bytes

/-- An overflow is reported exactly of base62 texts of the right width whose number does
not fit. -/
def OverflowExact (n : Nat) : Prop :=
  ∀ s : String, decodeFixed s n = .error .overflow ↔
    (utf8 s).length = widthFor n ∧ ∃ m, numeral (utf8 s) = some m ∧ 256 ^ n ≤ m

/-- `w` is the smallest width that holds `n` bytes. -/
def Smallest (n w : Nat) : Prop := 256 ^ n ≤ 62 ^ w ∧ ∀ v, 256 ^ n ≤ 62 ^ v → w ≤ v

theorem exact_of_fits {n : Nat} (fits : WidthFits n) : Exact n where
  roundTrip := fun _ size => (decodeFixed_eq_ok_iff fits).mpr ⟨size, rfl⟩
  width := by
    rintro bytes rfl
    rw [encodeFixed_eq, asciiText_length, encodedBytes_length]
  accepted := fun _ _ => decodeFixed_eq_ok_iff fits

/-- At the smallest width nothing overflows before the last character. -/
theorem overflowExact_of_smallest {n : Nat} (smallest : Smallest n (widthFor n)) : OverflowExact n := by
  intro s
  rw [decodeFixed_eq_overflow_iff]
  refine and_congr_right fun wide => ?_
  constructor
  · rintro ⟨k, inside, m, spells, large⟩
    have below := numeral_lt spells
    rw [List.length_take, wide, Nat.min_eq_left inside] at below
    have needed := smallest.2 k (Nat.le_of_lt (Nat.lt_of_le_of_lt large below))
    obtain rfl : k = widthFor n := Nat.le_antisymm inside needed
    rw [← wide, List.take_length] at spells
    exact ⟨m, spells, large⟩
  · rintro ⟨m, spells, large⟩
    refine ⟨widthFor n, Nat.le_refl _, m, ?_, large⟩
    rwa [← wide, List.take_length]

/-- The largest text of one character less, and one more character that is no digit. -/
def overlong (width : Nat) : String := asciiText (List.replicate (width - 1) (digitAt 61) ++ [33])

theorem value_largest (k : Nat) : Radix.value 62 (List.replicate k 61) + 1 = 62 ^ k := by
  induction k with
  | zero => rfl
  | succ k inductionHypothesis =>
    rw [List.replicate_succ, Radix.value_cons, List.length_replicate, Nat.add_assoc, inductionHypothesis, pow_succ]
    ring

theorem utf8_overlong (width : Nat) : utf8 (overlong width) = List.replicate (width - 1) (digitAt 61) ++ [33] := by
  apply utf8_asciiText
  simp only [List.forall_mem_append, List.forall_mem_singleton]
  exact ⟨fun b stands => List.eq_of_mem_replicate stands ▸ digitAt_ascii 61 (by decide), by decide⟩

theorem numeral_overlong (width : Nat) : numeral (utf8 (overlong width)) = none := by
  rw [Option.eq_none_iff_forall_ne_some]
  intro m spells
  obtain ⟨digits, small, text, _⟩ := numeralFrom_eq_some_iff.mp spells
  have last : (33 : UInt8) ∈ digits.map digitAt := by
    rw [← text, utf8_overlong]
    simp
  obtain ⟨d, stands, same⟩ := List.mem_map.mp last
  have digitless : ∀ d < 62, digitAt d ≠ 33 := by decide +kernel
  exact digitless d (small d stands) same

/-- Where one character less would hold more than the byte strings there are, a text that is
no base62 overflows. -/
theorem decodeFixed_overlong {n : Nat} (wider : 256 ^ n < 62 ^ (widthFor n - 1)) (positive : 0 < widthFor n) :
    decodeFixed (overlong (widthFor n)) n = .error .overflow := by
  rw [decodeFixed_eq_overflow_iff, utf8_overlong]
  refine ⟨by simp; omega, widthFor n - 1, Nat.sub_le _ _, Radix.value 62 (List.replicate (widthFor n - 1) 61), ?_, ?_⟩
  · rw [List.take_left' (by simp)]
    apply numeralFrom_eq_some_iff.mpr
    refine ⟨List.replicate (widthFor n - 1) 61, ?_, by simp, by simp⟩
    exact fun d stands => List.eq_of_mem_replicate stands ▸ by decide
  · have largest := value_largest (widthFor n - 1)
    omega

/-- No power of 62 is a power of 256, except one. -/
theorem pow_62_ne_pow_256 {n k : Nat} (positive : 0 < k) : 62 ^ k ≠ 256 ^ n := by
  intro same
  have divides : 31 ∣ 256 ^ n := by
    rw [← same]
    exact dvd_pow (by decide) (by omega)
  have prime : Nat.Prime 31 := by norm_num
  exact absurd (prime.dvd_of_dvd_pow divides) (by decide)

theorem smallest_of_overflowExact {n : Nat} (fits : WidthFits n) (exact : OverflowExact n) : Smallest n (widthFor n) := by
  refine ⟨widthFor_covers fits, fun v enough => ?_⟩
  by_contra narrower
  rw [Nat.not_le] at narrower
  have wider : 256 ^ n ≤ 62 ^ (widthFor n - 1) := Nat.le_trans enough (Nat.pow_le_pow_right (by decide) (by omega))
  have several : 0 < widthFor n - 1 := by
    by_contra single
    obtain rfl : v = 0 := by omega
    have empty : n = 0 := by
      by_contra some
      exact absurd enough (Nat.not_le.mpr (Nat.one_lt_pow some (by decide)))
    rw [empty] at narrower
    exact absurd narrower (by decide)
  have strictly := Nat.lt_of_le_of_ne wider (pow_62_ne_pow_256 several).symm
  obtain ⟨_, m, spells, _⟩ := (exact _).mp (decodeFixed_overlong strictly (by omega))
  rw [numeral_overlong] at spells
  cases spells

/-- **The codec is exact, and reports overflows exactly where its width is the smallest.**
For every length whose width does not overflow, byte strings are read back from texts of that
width and nothing else is read; and all of it, with the overflows, holds exactly where no
narrower width would do. -/
theorem fixed_width_exact (n : Nat) (fits : WidthFits n) :
    Exact n ∧ (Exact n ∧ OverflowExact n ↔ Smallest n (widthFor n)) :=
  ⟨exact_of_fits fits, fun exact => smallest_of_overflowExact fits exact.2,
    fun smallest => ⟨exact_of_fits fits, overflowExact_of_smallest smallest⟩⟩

theorem smallest_of_bounds {n w : Nat} (covers : 256 ^ n ≤ 62 ^ w) (narrow : 62 ^ (w - 1) < 256 ^ n) : Smallest n w := by
  refine ⟨covers, fun v enough => ?_⟩
  have lower : w - 1 < v := (Nat.pow_lt_pow_iff_right (by decide)).mp (Nat.lt_of_lt_of_le narrow enough)
  omega

/-- The widths of the checksum, of identifiers, of keys and of tokens are the smallest. -/
theorem smallest_used : ∀ n ∈ [4, 16, 32, 48, 64], Smallest n (widthFor n) := by
  have bounds : ∀ n ∈ [4, 16, 32, 48, 64], 256 ^ n ≤ 62 ^ widthFor n ∧ 62 ^ (widthFor n - 1) < 256 ^ n := by decide +kernel
  exact fun n used => smallest_of_bounds (bounds n used).1 (bounds n used).2

theorem fixed_width_exact_of_keys : Exact 32 ∧ OverflowExact 32 :=
  (fixed_width_exact 32 (by unfold WidthFits; decide)).2.mpr (smallest_used 32 (by decide))

/-- From 73544 bytes on a width can be one too wide: there a text that is no base62 is
reported as an overflow. -/
theorem overflow_reported_of_no_base62 :
    WidthFits 73544 ∧ decodeFixed (overlong (widthFor 73544)) 73544 = .error .overflow ∧
      numeral (utf8 (overlong (widthFor 73544))) = none := by
  have fits : WidthFits 73544 := by unfold WidthFits; decide
  have wider : 256 ^ 73544 < 62 ^ (widthFor 73544 - 1) := by decide +kernel
  exact ⟨fits, decodeFixed_overlong wider (by decide), numeral_overlong _⟩

end GalataVault.Formats
