import GalataVault.Formats.Checked

/-!
# Text and its bytes

A text in UTF-8 is the bytes of its characters one after the other. An ASCII byte is a
character of its own and stands in no other, so what is found among the bytes of a text by
its ASCII bytes is found among its characters. Bytes that are no text are decoded lossily.
-/

namespace GalataVault.Formats

open Proto

/-! ## Lossy text -/

def replacement : Char := Char.ofNat 0xFFFD

/-- Whether a byte continues a character. -/
def isContinuation (b : UInt8) : Bool := 0x80 ≤ b && b ≤ 0xBF

/-- Whether two bytes begin a character of three bytes. -/
def beginsThree (a b : UInt8) : Bool :=
  (a = 0xE0 && 0xA0 ≤ b && b ≤ 0xBF) || (0xE1 ≤ a && a ≤ 0xEC && 0x80 ≤ b && b ≤ 0xBF) ||
    (a = 0xED && 0x80 ≤ b && b ≤ 0x9F) || (0xEE ≤ a && a ≤ 0xEF && 0x80 ≤ b && b ≤ 0xBF)

/-- Whether two bytes begin a character of four bytes. -/
def beginsFour (a b : UInt8) : Bool :=
  (a = 0xF0 && 0x90 ≤ b && b ≤ 0xBF) || (0xF1 ≤ a && a ≤ 0xF3 && 0x80 ≤ b && b ≤ 0xBF) ||
    (a = 0xF4 && 0x80 ≤ b && b ≤ 0x8F)

/-- `String::from_utf8_lossy`: what begins a character and does not end one is replaced as a
whole, and so is every byte that begins none. -/
def fromUtf8Lossy : List UInt8 → List Char
  | [] => []
  | a :: rest =>
    if a < 0x80 then Char.ofNat a.toNat :: fromUtf8Lossy rest
    else
      match rest with
      | [] => [replacement]
      | b :: rest₁ =>
        if 0xC2 ≤ a ∧ a ≤ 0xDF then
          if isContinuation b then Char.ofNat (a.toNat % 32 * 64 + b.toNat % 64) :: fromUtf8Lossy rest₁
          else replacement :: fromUtf8Lossy (b :: rest₁)
        else if beginsThree a b then
          match rest₁ with
          | [] => [replacement]
          | c :: rest₂ =>
            if isContinuation c then
              Char.ofNat (a.toNat % 16 * 4096 + b.toNat % 64 * 64 + c.toNat % 64) :: fromUtf8Lossy rest₂
            else replacement :: fromUtf8Lossy (c :: rest₂)
        else if beginsFour a b then
          match rest₁ with
          | [] => [replacement]
          | c :: rest₂ =>
            if isContinuation c then
              match rest₂ with
              | [] => [replacement]
              | d :: rest₃ =>
                if isContinuation d then
                  Char.ofNat (a.toNat % 8 * 262144 + b.toNat % 64 * 4096 + c.toNat % 64 * 64 + d.toNat % 64) ::
                    fromUtf8Lossy rest₃
                else replacement :: fromUtf8Lossy (d :: rest₃)
            else replacement :: fromUtf8Lossy (c :: rest₂)
        else replacement :: fromUtf8Lossy (b :: rest₁)

/-! ## Characters and their bytes -/

/-- The bytes of a text, one character after the other. -/
def encode (text : List Char) : List UInt8 := text.flatMap String.utf8EncodeChar

theorem utf8_ofList (text : List Char) : utf8 (String.ofList text) = encode text := by
  rw [utf8_eq_data, String.toByteArray_ofList, List.utf8Encode, List.data_toByteArray, List.toList_toArray, encode]

theorem encode_append (front back : List Char) : encode (front ++ back) = encode front ++ encode back :=
  List.flatMap_append

theorem encode_cons (c : Char) (rest : List Char) : encode (c :: rest) = String.utf8EncodeChar c ++ encode rest := rfl

theorem encodeChar_ascii {c : Char} (ascii : c.toNat < 128) : String.utf8EncodeChar c = [UInt8.ofNat c.toNat] := by
  unfold String.utf8EncodeChar
  exact if_pos (Nat.le_of_lt_succ ascii)

/-- The bytes of every other character are none of an ASCII character. -/
theorem encodeChar_wide {c : Char} (wide : 128 ≤ c.toNat) :
    String.utf8EncodeChar c ≠ [] ∧ ∀ b ∈ String.utf8EncodeChar c, 128 ≤ b.toNat := by
  have past : ¬ c.val.toNat ≤ 0x7f := Nat.not_le.mpr wide
  unfold String.utf8EncodeChar
  dsimp only
  rw [if_neg past]
  split
  · refine ⟨List.cons_ne_nil _ _, ?_⟩
    simp only [List.forall_mem_cons, List.not_mem_nil, false_implies, implies_true, UInt8.toNat_ofNat', and_true]
    omega
  · split
    · refine ⟨List.cons_ne_nil _ _, ?_⟩
      simp only [List.forall_mem_cons, List.not_mem_nil, false_implies, implies_true, UInt8.toNat_ofNat', and_true]
      omega
    · refine ⟨List.cons_ne_nil _ _, ?_⟩
      simp only [List.forall_mem_cons, List.not_mem_nil, false_implies, implies_true, UInt8.toNat_ofNat', and_true]
      omega

theorem encode_eq_nil {text : List Char} (empty : encode text = []) : text = [] := by
  cases text with
  | nil => rfl
  | cons c rest =>
    rw [encode_cons, List.append_eq_nil_iff] at empty
    obtain ascii | wide := Nat.lt_or_ge c.toNat 128
    · rw [encodeChar_ascii ascii] at empty
      cases empty.1
    · exact absurd empty.1 (encodeChar_wide wide).1

/-- An ASCII byte of a text is a character of it. The induction is on the text: a wider
character has no such byte, so the byte is behind it. -/
theorem split_at_ascii {text : List Char} {p q : List UInt8} {b : UInt8} (ascii : b.toNat < 128)
    (bytes : encode text = p ++ b :: q) :
    ∃ front back, text = front ++ Char.ofNat b.toNat :: back ∧ encode front = p ∧ encode back = q := by
  induction text generalizing p with
  | nil => simp [encode] at bytes
  | cons c rest inductionHypothesis =>
    rw [encode_cons] at bytes
    have later {skipped : List UInt8} (before : p = String.utf8EncodeChar c ++ skipped)
        (behind : encode rest = skipped ++ b :: q) :
        ∃ front back, c :: rest = front ++ Char.ofNat b.toNat :: back ∧ encode front = p ∧ encode back = q := by
      obtain ⟨front, back, rfl, rfl, same⟩ := inductionHypothesis behind
      exact ⟨c :: front, back, rfl, before.symm, same⟩
    obtain ⟨skipped, before, behind⟩ | ⟨inside, before, behind⟩ := List.append_eq_append_iff.mp bytes
    · exact later before behind
    · cases inside with
      | nil =>
        rw [List.append_nil] at before
        exact @later [] (by rw [before, List.append_nil]) behind.symm
      | cons first more =>
        obtain ⟨rfl, rfl⟩ := List.cons.inj behind
        have member : b ∈ String.utf8EncodeChar c := by
          rw [before]
          simp
        obtain narrow | wide := Nat.lt_or_ge c.toNat 128
        · rw [encodeChar_ascii narrow] at before member
          obtain rfl := List.mem_singleton.mp member
          have small : (UInt8.ofNat c.toNat).toNat = c.toNat := by
            rw [UInt8.toNat_ofNat']
            omega
          cases p with
          | nil =>
            obtain rfl : more = [] := by simpa using before
            exact ⟨[], rest, by rw [small, Char.ofNat_toNat]; rfl, rfl, rfl⟩
          | cons => simp at before
        · have large := (encodeChar_wide wide).2 b member
          omega

/-- ASCII bytes at the front of a text are its first characters. -/
theorem split_ascii {text : List Char} {front q : List UInt8} (ascii : ∀ b ∈ front, b.toNat < 128)
    (bytes : encode text = front ++ q) :
    ∃ back, text = front.map (fun b => Char.ofNat b.toNat) ++ back ∧ encode back = q := by
  induction front generalizing text with
  | nil => exact ⟨text, rfl, bytes⟩
  | cons b front inductionHypothesis =>
    simp only [List.forall_mem_cons] at ascii
    obtain ⟨none, back, rfl, empty, tail⟩ := split_at_ascii (p := []) ascii.1 bytes
    obtain rfl := encode_eq_nil empty
    obtain ⟨behind, rfl, same⟩ := inductionHypothesis ascii.2 tail
    exact ⟨behind, rfl, same⟩

theorem encode_ascii {text : List Char} (ascii : ∀ c ∈ text, c.toNat < 128) :
    encode text = text.map fun c => UInt8.ofNat c.toNat := by
  rw [← utf8_ofList, utf8_ofList_ascii ascii]

/-! ## Tests that agree -/

/-- A test of bytes and a test of characters that agree on ASCII and are false elsewhere. -/
structure Agree (byte : UInt8 → Bool) (char : Char → Bool) : Prop where
  ascii : ∀ n < 128, byte (UInt8.ofNat n) = char (Char.ofNat n)
  wideByte : ∀ n < 256, 128 ≤ n → byte (UInt8.ofNat n) = false
  wideChar : ∀ c : Char, 128 ≤ c.toNat → char c = false

namespace Agree

variable {byte : UInt8 → Bool} {char : Char → Bool}

theorem ofNat (agree : Agree byte char) {b : UInt8} (ascii : b.toNat < 128) : byte b = char (Char.ofNat b.toNat) := by
  have same := agree.ascii b.toNat ascii
  rwa [UInt8.ofNat_toNat] at same

theorem wide (agree : Agree byte char) {b : UInt8} (wide : 128 ≤ b.toNat) : byte b = false := by
  have none := agree.wideByte b.toNat b.toNat_lt wide
  rwa [UInt8.ofNat_toNat] at none

theorem toNat_lt (agree : Agree byte char) {b : UInt8} (passes : byte b = true) : b.toNat < 128 := by
  by_contra wide
  rw [agree.wide (Nat.le_of_not_lt wide)] at passes
  cases passes

theorem char_lt (agree : Agree byte char) {c : Char} (passes : char c = true) : c.toNat < 128 := by
  by_contra wide
  rw [agree.wideChar c (Nat.le_of_not_lt wide)] at passes
  cases passes

/-- The bytes of a character pass the test of bytes as the character passes its own. -/
theorem encodeChar (agree : Agree byte char) (c : Char) : ∀ b ∈ String.utf8EncodeChar c, byte b = char c := by
  obtain narrow | wide := Nat.lt_or_ge c.toNat 128
  · rw [encodeChar_ascii narrow, List.forall_mem_singleton, agree.ascii _ narrow, Char.ofNat_toNat]
  · intro b member
    rw [agree.wide ((encodeChar_wide wide).2 b member), agree.wideChar c wide]

/-- What comes first in a text passes as its first byte does. -/
theorem head (agree : Agree byte char) (text : List Char) : (encode text).head?.any byte = text.head?.any char := by
  cases text with
  | nil => rfl
  | cons c rest =>
    rw [encode_cons]
    cases bytes : String.utf8EncodeChar c with
    | nil =>
      obtain narrow | wide := Nat.lt_or_ge c.toNat 128
      · rw [encodeChar_ascii narrow] at bytes
        cases bytes
      · exact absurd bytes (encodeChar_wide wide).1
    | cons b more => exact agree.encodeChar c b (by simp [bytes])

/-- What comes last in a text passes as its last byte does. -/
theorem last (agree : Agree byte char) (text : List Char) : (encode text).getLast?.any byte = text.getLast?.any char := by
  obtain rfl | ⟨front, c, rfl⟩ := List.eq_nil_or_concat' text
  · rfl
  · have single : encode [c] = String.utf8EncodeChar c := by simp [encode]
    rw [encode_append, single]
    cases bytes : (String.utf8EncodeChar c).getLast? with
    | none =>
      rw [List.getLast?_eq_none_iff] at bytes
      obtain narrow | wide := Nat.lt_or_ge c.toNat 128
      · rw [encodeChar_ascii narrow] at bytes
        cases bytes
      · exact absurd bytes (encodeChar_wide wide).1
    | some b =>
      rw [List.getLast?_append, bytes]
      simpa using agree.encodeChar c b (List.mem_of_getLast? bytes)

end Agree

/-! ## Text decoded -/

theorem fromUtf8Lossy_ascii {a : UInt8} (ascii : a < 0x80) (rest : List UInt8) :
    fromUtf8Lossy (a :: rest) = Char.ofNat a.toNat :: fromUtf8Lossy rest := by
  rw [fromUtf8Lossy.eq_def]
  exact if_pos ascii

theorem fromUtf8Lossy_two {a b : UInt8} (wide : ¬ a < 0x80) (begins : 0xC2 ≤ a ∧ a ≤ 0xDF)
    (continues : isContinuation b = true) (rest : List UInt8) :
    fromUtf8Lossy (a :: b :: rest) = Char.ofNat (a.toNat % 32 * 64 + b.toNat % 64) :: fromUtf8Lossy rest := by
  rw [fromUtf8Lossy.eq_def]
  simp only [wide, begins, continues, and_self, if_true, if_false]

theorem fromUtf8Lossy_three {a b c : UInt8} (wide : ¬ a < 0x80) (longer : ¬ (0xC2 ≤ a ∧ a ≤ 0xDF))
    (begins : beginsThree a b = true) (continues : isContinuation c = true) (rest : List UInt8) :
    fromUtf8Lossy (a :: b :: c :: rest) =
      Char.ofNat (a.toNat % 16 * 4096 + b.toNat % 64 * 64 + c.toNat % 64) :: fromUtf8Lossy rest := by
  rw [fromUtf8Lossy.eq_def]
  simp only [wide, longer, begins, continues, if_true, if_false]

theorem fromUtf8Lossy_four {a b c d : UInt8} (wide : ¬ a < 0x80) (longer : ¬ (0xC2 ≤ a ∧ a ≤ 0xDF))
    (other : beginsThree a b = false) (begins : beginsFour a b = true) (continues : isContinuation c = true)
    (ends : isContinuation d = true) (rest : List UInt8) :
    fromUtf8Lossy (a :: b :: c :: d :: rest) =
      Char.ofNat (a.toNat % 8 * 262144 + b.toNat % 64 * 4096 + c.toNat % 64 * 64 + d.toNat % 64) ::
        fromUtf8Lossy rest := by
  rw [fromUtf8Lossy.eq_def]
  simp only [wide, longer, other, begins, continues, ends, Bool.false_eq_true, if_true, if_false]

theorem isContinuation_low (n : Nat) : isContinuation (UInt8.ofNat (n % 0x40 + 0x80)) = true := by
  simp [isContinuation, UInt8.le_iff_toNat_le, UInt8.toNat_ofNat']
  omega

theorem fromUtf8Lossy_written_one {v : Nat} (one : v ≤ 0x7f) (rest : List UInt8) :
    fromUtf8Lossy (UInt8.ofNat v :: rest) = Char.ofNat v :: fromUtf8Lossy rest := by
  have ascii : UInt8.ofNat v < 0x80 := by
    simp only [UInt8.lt_iff_toNat_lt, UInt8.toNat_ofNat', UInt8.reduceToNat]
    omega
  have value : (UInt8.ofNat v).toNat = v := by
    rw [UInt8.toNat_ofNat']
    omega
  rw [fromUtf8Lossy_ascii ascii, value]

theorem fromUtf8Lossy_written_two {v : Nat} (past : ¬ v ≤ 0x7f) (two : v ≤ 0x7ff) (rest : List UInt8) :
    fromUtf8Lossy (UInt8.ofNat (v / 64 % 0x20 + 0xc0) :: UInt8.ofNat (v % 0x40 + 0x80) :: rest) =
      Char.ofNat v :: fromUtf8Lossy rest := by
  have wide : ¬ UInt8.ofNat (v / 64 % 0x20 + 0xc0) < 0x80 := by
    simp only [UInt8.lt_iff_toNat_lt, UInt8.toNat_ofNat', UInt8.reduceToNat]
    omega
  have begins : 0xC2 ≤ UInt8.ofNat (v / 64 % 0x20 + 0xc0) ∧ UInt8.ofNat (v / 64 % 0x20 + 0xc0) ≤ 0xDF := by
    simp only [UInt8.le_iff_toNat_le, UInt8.toNat_ofNat', UInt8.reduceToNat]
    omega
  have value : (UInt8.ofNat (v / 64 % 0x20 + 0xc0)).toNat % 32 * 64 + (UInt8.ofNat (v % 0x40 + 0x80)).toNat % 64 = v := by
    rw [UInt8.toNat_ofNat', UInt8.toNat_ofNat']
    omega
  rw [fromUtf8Lossy_two wide begins (isContinuation_low v), value]

theorem fromUtf8Lossy_written_three {v : Nat} (past : ¬ v ≤ 0x7ff) (three : v ≤ 0xffff)
    (range : v < 0xd800 ∨ 0xdfff < v) (rest : List UInt8) :
    fromUtf8Lossy (UInt8.ofNat (v / 4096 % 0x10 + 0xe0) :: UInt8.ofNat (v / 64 % 0x40 + 0x80) ::
      UInt8.ofNat (v % 0x40 + 0x80) :: rest) = Char.ofNat v :: fromUtf8Lossy rest := by
  have wide : ¬ UInt8.ofNat (v / 4096 % 0x10 + 0xe0) < 0x80 := by
    simp only [UInt8.lt_iff_toNat_lt, UInt8.toNat_ofNat', UInt8.reduceToNat]
    omega
  have longer : ¬ (0xC2 ≤ UInt8.ofNat (v / 4096 % 0x10 + 0xe0) ∧ UInt8.ofNat (v / 4096 % 0x10 + 0xe0) ≤ 0xDF) := by
    simp only [UInt8.le_iff_toNat_le, UInt8.toNat_ofNat', UInt8.reduceToNat]
    omega
  have begins : beginsThree (UInt8.ofNat (v / 4096 % 0x10 + 0xe0)) (UInt8.ofNat (v / 64 % 0x40 + 0x80)) = true := by
    simp only [beginsThree, Bool.or_eq_true, Bool.and_eq_true, decide_eq_true_eq, UInt8.le_iff_toNat_le,
      ← UInt8.toNat_inj, UInt8.toNat_ofNat', UInt8.reduceToNat]
    omega
  have value : (UInt8.ofNat (v / 4096 % 0x10 + 0xe0)).toNat % 16 * 4096 +
      (UInt8.ofNat (v / 64 % 0x40 + 0x80)).toNat % 64 * 64 + (UInt8.ofNat (v % 0x40 + 0x80)).toNat % 64 = v := by
    simp only [UInt8.toNat_ofNat']
    omega
  rw [fromUtf8Lossy_three wide longer begins (isContinuation_low v), value]

theorem fromUtf8Lossy_written_four {v : Nat} (past : ¬ v ≤ 0xffff) (range : v < 0x110000) (rest : List UInt8) :
    fromUtf8Lossy (UInt8.ofNat (v / 262144 % 0x08 + 0xf0) :: UInt8.ofNat (v / 4096 % 0x40 + 0x80) ::
      UInt8.ofNat (v / 64 % 0x40 + 0x80) :: UInt8.ofNat (v % 0x40 + 0x80) :: rest) =
        Char.ofNat v :: fromUtf8Lossy rest := by
  have wide : ¬ UInt8.ofNat (v / 262144 % 0x08 + 0xf0) < 0x80 := by
    simp only [UInt8.lt_iff_toNat_lt, UInt8.toNat_ofNat', UInt8.reduceToNat]
    omega
  have longer : ¬ (0xC2 ≤ UInt8.ofNat (v / 262144 % 0x08 + 0xf0) ∧ UInt8.ofNat (v / 262144 % 0x08 + 0xf0) ≤ 0xDF) := by
    simp only [UInt8.le_iff_toNat_le, UInt8.toNat_ofNat', UInt8.reduceToNat]
    omega
  have other : beginsThree (UInt8.ofNat (v / 262144 % 0x08 + 0xf0)) (UInt8.ofNat (v / 4096 % 0x40 + 0x80)) = false := by
    rw [Bool.eq_false_iff]
    simp only [ne_eq, beginsThree, Bool.or_eq_true, Bool.and_eq_true, decide_eq_true_eq, UInt8.le_iff_toNat_le,
      ← UInt8.toNat_inj, UInt8.toNat_ofNat', UInt8.reduceToNat]
    omega
  have begins : beginsFour (UInt8.ofNat (v / 262144 % 0x08 + 0xf0)) (UInt8.ofNat (v / 4096 % 0x40 + 0x80)) = true := by
    simp only [beginsFour, Bool.or_eq_true, Bool.and_eq_true, decide_eq_true_eq, UInt8.le_iff_toNat_le,
      ← UInt8.toNat_inj, UInt8.toNat_ofNat', UInt8.reduceToNat]
    omega
  have value : (UInt8.ofNat (v / 262144 % 0x08 + 0xf0)).toNat % 8 * 262144 +
      (UInt8.ofNat (v / 4096 % 0x40 + 0x80)).toNat % 64 * 4096 + (UInt8.ofNat (v / 64 % 0x40 + 0x80)).toNat % 64 * 64 +
      (UInt8.ofNat (v % 0x40 + 0x80)).toNat % 64 = v := by
    simp only [UInt8.toNat_ofNat']
    omega
  rw [fromUtf8Lossy_four wide longer other begins (isContinuation_low (v / 64)) (isContinuation_low v), value]

/-- A character in UTF-8 is decoded as it is. The cases are its four widths. -/
theorem fromUtf8Lossy_encodeChar (c : Char) (rest : List UInt8) :
    fromUtf8Lossy (String.utf8EncodeChar c ++ rest) = c :: fromUtf8Lossy rest := by
  have back : Char.ofNat c.val.toNat = c := Char.ofNat_toNat c
  have range : c.val.toNat < 0xd800 ∨ (0xdfff < c.val.toNat ∧ c.val.toNat < 0x110000) := c.valid
  unfold String.utf8EncodeChar
  generalize c.val.toNat = v at *
  subst back
  dsimp only
  split
  · next one => exact fromUtf8Lossy_written_one one rest
  · split
    · next past two => exact fromUtf8Lossy_written_two past two rest
    · split
      · next past three => exact fromUtf8Lossy_written_three past three (range.imp_right And.left) rest
      · next past => exact fromUtf8Lossy_written_four past (by omega) rest

/-- Text in UTF-8 is decoded as it is. -/
theorem fromUtf8Lossy_encode (text : List Char) : fromUtf8Lossy (encode text) = text := by
  induction text with
  | nil => rfl
  | cons c rest inductionHypothesis => rw [encode_cons, fromUtf8Lossy_encodeChar, inductionHypothesis]

end GalataVault.Formats
