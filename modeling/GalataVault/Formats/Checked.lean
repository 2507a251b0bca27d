import GalataVault.Library.Crc
import GalataVault.Formats.Base62
import GalataVault.Server.Records

/-!
# Checksummed strings

Keys and tokens are written as a prefix, their bytes in base62, and the CRC-32 of that
text in base62. One character mistyped after the prefix is always refused: in the body it
changes one byte of the text, which changes the checksum; in the checksum it no longer
matches the body; and any other character changes the length or is no digit.
-/

namespace GalataVault.Formats

open Proto
open Server (trimBoth isWhitespace)

/-! ## The code -/

/-- Characters in the checksum suffix. -/
def checksumWidth : Nat := 6

/-- The prefix of a node key: a project key, or an exported environment key. -/
def keyPrefix : String := "gvk1_"
/-- The prefix of an access token. -/
def tokenPrefix : String := "gvt1_"

def keyLen : Nat := 32
def tokenSecretLen : Nat := 32
/-- Bytes a token string carries: id, vault id, secret. -/
def tokenLen : Nat := 16 + 16 + tokenSecretLen

/-- The polynomial of CRC-32, first bit last. -/
def crcPolynomial : BitVec 32 := 0xEDB88320#32

def crc32 (bytes : List UInt8) : BitVec 32 := ~~~ Crc.run crcPolynomial (BitVec.allOnes 32) bytes

example : crc32 (utf8 "123456789") = 0xCBF43926#32 := by
  rw [utf8_eq_data]
  decide +kernel

/-- What follows a prefix. -/
def stripPrefix (start s : List Char) : Option (List Char) := if start <+: s then some (s.drop start.length) else none

/-- Without the white space at both ends. -/
def trim (s : String) : String := String.ofList (trimBoth isWhitespace s.toList)

/-- A string of the expected kind whose prefix digit is not the one this build knows. -/
def otherVersion (expected s : String) : Option FormatError :=
  let kind := expected.toList.take (expected.length - 2)
  let digit := expected.toList.drop (expected.length - 2)
  match stripPrefix kind s.toList with
  | some (found :: next :: _) =>
    if found.isDigit ∧ next = '_' ∧ digit.head? ≠ some found then some (.unknownVersion found) else none
  | _ => none

def checksum (start body : String) : String := encodeFixed (beBytes 4 (crc32 (utf8 start ++ utf8 body)).toNat)

/-- The prefix, the bytes in base62, and the checksum. -/
def encodeChecked (start : String) (bytes : List UInt8) : String :=
  let body := encodeFixed bytes
  start ++ body ++ checksum start body

/-- The inverse of `encodeChecked`. The checksum is verified before the body is decoded. -/
def decodeChecked (start s : String) (nBytes : Nat) : Except FormatError (List UInt8) :=
  match stripPrefix start.toList s.toList with
  | none => .error ((otherVersion start s).getD (.wrongPrefix start))
  | some rest =>
    let width := widthFor nBytes
    if (utf8 (String.ofList rest)).length ≠ width + checksumWidth ∨ ¬ ∀ c ∈ rest, c.toNat < 128 then
      .error (.wrongLength (width + checksumWidth) rest.length)
    else
      let body := String.ofList (rest.take width)
      let sum := String.ofList (rest.drop width)
      match (utf8 sum).findIdx? fun c => (digit c).isNone with
      | some position => .error (.badCharacter (width + position))
      | none => if checksum start body ≠ sum then .error .checksum else decodeFixed body nBytes

/-! ## Exactness -/

theorem stripPrefix_eq_some_iff {start s rest : List Char} : stripPrefix start s = some rest ↔ s = start ++ rest := by
  unfold stripPrefix
  split
  · next stands =>
    obtain ⟨more, rfl⟩ := stands
    simp
  · next absent =>
    simp only [reduceCtorEq, false_iff]
    rintro rfl
    exact absent (List.prefix_append _ _)

/-- Characters below 128 are their own bytes. -/
theorem utf8_ofList_ascii {text : List Char} (ascii : ∀ c ∈ text, c.toNat < 128) :
    utf8 (String.ofList text) = text.map fun c => UInt8.ofNat c.toNat := by
  have same : String.ofList text = asciiText (text.map fun c => UInt8.ofNat c.toNat) := by
    rw [asciiText, List.map_map]
    congr 1
    conv => lhs; rw [← List.map_id text]
    refine List.map_congr_left fun c stands => ?_
    have small := ascii c stands
    simp only [Function.comp_apply, id_eq, UInt8.toNat_ofNat']
    rw [Nat.mod_eq_of_lt (by omega), Char.ofNat_toNat]
  rw [same, utf8_asciiText]
  simp only [List.forall_mem_map, UInt8.toNat_ofNat']
  exact fun c stands => Nat.lt_of_le_of_lt (Nat.mod_le _ _) (ascii c stands)

theorem asciiText_toList (bytes : List UInt8) : (asciiText bytes).toList = bytes.map fun b => Char.ofNat b.toNat := by
  simp [asciiText]

theorem toNat_ofNat_ascii {b : UInt8} (ascii : b.toNat < 128) : (Char.ofNat b.toNat).toNat = b.toNat := by
  have valid : b.toNat.isValidChar := Or.inl (by omega)
  rw [Char.toNat_ofNat, if_pos valid]

theorem asciiText_ascii {bytes : List UInt8} (ascii : ∀ b ∈ bytes, b.toNat < 128) :
    ∀ c ∈ (asciiText bytes).toList, c.toNat < 128 := by
  rw [asciiText_toList]
  simp only [List.forall_mem_map]
  intro b stands
  rw [toNat_ofNat_ascii (ascii b stands)]
  exact ascii b stands

theorem encodeFixed_ascii (bytes : List UInt8) : ∀ c ∈ (encodeFixed bytes).toList, c.toNat < 128 := by
  rw [encodeFixed_eq]
  exact asciiText_ascii (encodedBytes_ascii bytes)

theorem encodeFixed_toList_length (bytes : List UInt8) : (encodeFixed bytes).toList.length = widthFor bytes.length := by
  rw [encodeFixed_eq, asciiText_toList, List.length_map, encodedBytes_length]

theorem checksum_toList_length (start body : String) : (checksum start body).toList.length = checksumWidth := by
  rw [checksum, encodeFixed_toList_length, beBytes_length]
  decide

/-- Every character of an encoding is a digit. -/
theorem encodedBytes_digits (bytes : List UInt8) : ∀ b ∈ encodedBytes bytes, (digit b).isNone = false := by
  simp only [encodedBytes, List.forall_mem_map]
  intro d stands
  rw [digit_digitAt d (Radix.digits_small (by decide) _ _ d stands)]
  rfl

theorem encodeChecked_toList (start : String) (bytes : List UInt8) :
    (encodeChecked start bytes).toList =
      start.toList ++ ((encodeFixed bytes).toList ++ (checksum start (encodeFixed bytes)).toList) := by
  simp [encodeChecked, String.toList_append]

/-- Decoding succeeds exactly on the encoding of what it returns. -/
theorem decodeChecked_eq_ok_iff {start s : String} {n : Nat} (fits : WidthFits n) {bytes : List UInt8} :
    decodeChecked start s n = .ok bytes ↔ bytes.length = n ∧ s = encodeChecked start bytes := by
  unfold decodeChecked
  constructor
  · intro decoded
    split at decoded
    · cases decoded
    · next rest stripped =>
      dsimp only at decoded
      split at decoded
      · cases decoded
      · split at decoded
        · cases decoded
        · split at decoded
          · cases decoded
          · next agrees =>
            obtain ⟨size, body⟩ := (decodeFixed_eq_ok_iff fits).mp decoded
            rw [ne_eq, not_not, body] at agrees
            have whole := stripPrefix_eq_some_iff.mp stripped
            refine ⟨size, String.toList_inj.mp ?_⟩
            rw [encodeChecked_toList, whole, agrees, ← body, String.toList_ofList, String.toList_ofList,
              List.take_append_drop]
  · rintro ⟨rfl, rfl⟩
    have stripped : stripPrefix start.toList (encodeChecked start bytes).toList =
        some ((encodeFixed bytes).toList ++ (checksum start (encodeFixed bytes)).toList) :=
      stripPrefix_eq_some_iff.mpr (encodeChecked_toList start bytes)
    have ascii : ∀ c ∈ (encodeFixed bytes).toList ++ (checksum start (encodeFixed bytes)).toList, c.toNat < 128 :=
      List.forall_mem_append.mpr ⟨encodeFixed_ascii bytes, encodeFixed_ascii _⟩
    have long : (utf8 (String.ofList ((encodeFixed bytes).toList ++ (checksum start (encodeFixed bytes)).toList))).length =
        widthFor bytes.length + checksumWidth := by
      rw [utf8_ofList_ascii ascii, List.length_map, List.length_append, encodeFixed_toList_length, checksum_toList_length]
    have cut := encodeFixed_toList_length bytes
    have digits : ((utf8 (checksum start (encodeFixed bytes))).findIdx? fun c => (digit c).isNone) = none := by
      rw [List.findIdx?_eq_none_iff, checksum, utf8_encodeFixed]
      exact encodedBytes_digits _
    have decoded : decodeFixed (encodeFixed bytes) bytes.length = .ok bytes := (decodeFixed_eq_ok_iff fits).mpr ⟨rfl, rfl⟩
    rw [stripped]
    dsimp only
    rw [if_neg (by rw [long]; simpa using ascii), List.take_left' cut, List.drop_left' cut, String.ofList_toList,
      String.ofList_toList, digits]
    simpa using decoded

theorem decodeChecked_length {start s : String} {n : Nat} (fits : WidthFits n) {bytes : List UInt8}
    (decoded : decodeChecked start s n = .ok bytes) : bytes.length = n :=
  ((decodeChecked_eq_ok_iff fits).mp decoded).1

theorem keyLen_fits : WidthFits keyLen := by unfold WidthFits; decide

theorem tokenLen_fits : WidthFits tokenLen := by unfold WidthFits; decide

/-! ## Keys and tokens -/

/-- A node key as text. -/
def encodeNodeKey (key : FixedBytes 32) : String := encodeChecked keyPrefix key.bytes

/-- Parse a node key. What was decoded is copied into an array, whose length it has. -/
def decodeNodeKey (s : String) : Except FormatError (FixedBytes 32) :=
  match decoded : decodeChecked keyPrefix (trim s) keyLen with
  | .error e => .error e
  | .ok bytes => .ok ⟨bytes, decodeChecked_length keyLen_fits decoded⟩

/-- A parsed token: the public id, the vault it belongs to, and the secret. -/
structure TokenString where
  id : TokenId
  vaultId : VaultId
  secret : FixedBytes 32
deriving DecidableEq

/-- The bytes a token string carries. -/
def TokenString.raw (t : TokenString) : List UInt8 := t.id.raw.bytes ++ (t.vaultId.raw.bytes ++ t.secret.bytes)

theorem TokenString.raw_length (t : TokenString) : t.raw.length = tokenLen := by simp [raw, tokenLen, tokenSecretLen]

def TokenString.encode (id : TokenId) (vaultId : VaultId) (secret : FixedBytes 32) : String :=
  encodeChecked tokenPrefix (TokenString.raw ⟨id, vaultId, secret⟩)

/-- The token that as many bytes as a token has carry. -/
def TokenString.ofRaw (raw : List UInt8) (size : raw.length = tokenLen) : TokenString where
  id := ⟨raw.take 16, by rw [List.length_take, size]; rfl⟩
  vaultId := ⟨(raw.drop 16).take 16, by rw [List.length_take, List.length_drop, size]; rfl⟩
  secret := ⟨raw.drop 32, by rw [List.length_drop, size]; rfl⟩

theorem TokenString.ofRaw_raw (t : TokenString) : ofRaw t.raw t.raw_length = t := by
  have first : t.raw.take 16 = t.id.raw.bytes := List.take_left' t.id.raw.size
  have rest : t.raw.drop 16 = t.vaultId.raw.bytes ++ t.secret.bytes := List.drop_left' t.id.raw.size
  have second : (t.raw.drop 16).take 16 = t.vaultId.raw.bytes := by rw [rest, List.take_left' t.vaultId.raw.size]
  have last : t.raw.drop 32 = t.secret.bytes := by
    have twice : t.raw.drop 32 = (t.raw.drop 16).drop 16 := by rw [List.drop_drop]
    rw [twice, rest, List.drop_left' t.vaultId.raw.size]
  obtain ⟨⟨⟨_, _⟩⟩, ⟨⟨_, _⟩⟩, ⟨_, _⟩⟩ := t
  simp only [ofRaw, first, second, last]

/-- Parse a token. -/
def TokenString.parse (s : String) : Except FormatError TokenString :=
  match decoded : decodeChecked tokenPrefix (trim s) tokenLen with
  | .error e => .error e
  | .ok raw => .ok (ofRaw raw (decodeChecked_length tokenLen_fits decoded))

theorem decodeNodeKey_of_checked {s : String} {key : FixedBytes 32}
    (decoded : decodeChecked keyPrefix (trim s) keyLen = .ok key.bytes) : decodeNodeKey s = .ok key := by
  unfold decodeNodeKey
  split
  · next e failed =>
    rw [decoded] at failed
    cases failed
  · next bytes read =>
    rw [decoded] at read
    obtain rfl := Except.ok.inj read
    rfl

theorem parse_of_checked {s : String} {t : TokenString}
    (decoded : decodeChecked tokenPrefix (trim s) tokenLen = .ok t.raw) : TokenString.parse s = .ok t := by
  unfold TokenString.parse
  split
  · next e failed =>
    rw [decoded] at failed
    cases failed
  · next raw read =>
    rw [decoded] at read
    obtain rfl := Except.ok.inj read
    rw [TokenString.ofRaw_raw]

/-- What does not decode is no key. -/
theorem decodeNodeKey_refuses {s : String} (refused : ∀ bytes, decodeChecked keyPrefix (trim s) keyLen ≠ .ok bytes) :
    ∃ e, decodeNodeKey s = .error e := by
  unfold decodeNodeKey
  split
  · next e _ => exact ⟨e, rfl⟩
  · next bytes read => exact absurd read (refused bytes)

theorem parse_refuses {s : String} (refused : ∀ bytes, decodeChecked tokenPrefix (trim s) tokenLen ≠ .ok bytes) :
    ∃ e, TokenString.parse s = .error e := by
  unfold TokenString.parse
  split
  · next e _ => exact ⟨e, rfl⟩
  · next bytes read => exact absurd read (refused bytes)

/-! ## White space -/

/-- What stands at neither end is not trimmed. -/
theorem trimBoth_eq_self {p : Char → Bool} {text : List Char} (first : ∀ c ∈ text.head?, p c = false)
    (last : ∀ c ∈ text.getLast?, p c = false) : trimBoth p text = text := by
  have front : text.dropWhile p = text := by
    cases text with
    | nil => rfl
    | cons c rest => simp [first c rfl]
  have back : text.reverse.dropWhile p = text.reverse := by
    cases ends : text.reverse with
    | nil => rfl
    | cons c rest =>
      have final : text.getLast? = some c := by rw [← List.head?_reverse, ends]; rfl
      simp [last c final]
  rw [trimBoth, front, back, List.reverse_reverse]

/-- Trimming that takes nothing away changes nothing. -/
theorem trimBoth_eq_of_length {p : Char → Bool} {text : List Char} (size : (trimBoth p text).length = text.length) :
    trimBoth p text = text := by
  have front : (text.dropWhile p).length = text.length := by
    apply Nat.le_antisymm (List.length_dropWhile_le p text)
    rw [← size, trimBoth, List.length_reverse, ← @List.length_reverse _ (text.dropWhile p)]
    exact List.length_dropWhile_le p _
  have kept : text.dropWhile p = text := (List.dropWhile_suffix p).eq_of_length front
  have back : (text.reverse.dropWhile p).length = text.reverse.length := by
    rw [trimBoth, kept, List.length_reverse] at size
    rw [size, List.length_reverse]
  have reversed : text.reverse.dropWhile p = text.reverse := (List.dropWhile_suffix p).eq_of_length back
  rw [trimBoth, kept, reversed, List.reverse_reverse]

/-- No digit of the alphabet is white space. -/
theorem encodeFixed_plain (bytes : List UInt8) : ∀ c ∈ (encodeFixed bytes).toList, isWhitespace c = false := by
  have digits : ∀ d < 62, isWhitespace (Char.ofNat (digitAt d).toNat) = false := by decide +kernel
  rw [encodeFixed_eq, asciiText_toList]
  simp only [encodedBytes, List.forall_mem_map]
  exact fun d stands => digits d (Radix.digits_small (by decide) _ _ d stands)

theorem trim_encodeChecked {start : String} (plain : ∀ c ∈ start.toList, isWhitespace c = false) (bytes : List UInt8) :
    trim (encodeChecked start bytes) = encodeChecked start bytes := by
  have all : ∀ c ∈ (encodeChecked start bytes).toList, isWhitespace c = false := by
    rw [encodeChecked_toList]
    exact List.forall_mem_append.mpr
      ⟨plain, List.forall_mem_append.mpr ⟨encodeFixed_plain bytes, encodeFixed_plain _⟩⟩
  rw [trim, trimBoth_eq_self (fun c first => all c (List.mem_of_mem_head? first))
    (fun c last => all c (List.mem_of_mem_getLast? last)), String.ofList_toList]

theorem keyPrefix_plain : ∀ c ∈ keyPrefix.toList, isWhitespace c = false := by
  simp [keyPrefix, isWhitespace]

theorem tokenPrefix_plain : ∀ c ∈ tokenPrefix.toList, isWhitespace c = false := by
  simp [tokenPrefix, isWhitespace]

theorem encodeChecked_length (start : String) (bytes : List UInt8) :
    (encodeChecked start bytes).toList.length = start.toList.length + (widthFor bytes.length + checksumWidth) := by
  rw [encodeChecked_toList, List.length_append, List.length_append, encodeFixed_toList_length, checksum_toList_length]

/-! ## Typing errors -/

/-- `typo` is `s` with one character after the prefix replaced by another. -/
def Mistyped (start s typo : String) : Prop :=
  ∃ (before after : List Char) (old new : Char), start.toList.length ≤ before.length ∧ new ≠ old ∧
    s.toList = before ++ old :: after ∧ typo.toList = before ++ new :: after

theorem crc32_injective_of_run {left right : List UInt8} (same : crc32 left = crc32 right) :
    Crc.run crcPolynomial (BitVec.allOnes 32) left = Crc.run crcPolynomial (BitVec.allOnes 32) right :=
  BitVec.not_inj.mp same

/-- The checksum is read back from its text. -/
theorem crc32_of_checksum {start left right : String} (same : checksum start left = checksum start right) :
    crc32 (utf8 start ++ utf8 left) = crc32 (utf8 start ++ utf8 right) := by
  have fits : WidthFits 4 := by unfold WidthFits; decide
  have small : ∀ sum : BitVec 32, sum.toNat < 256 ^ 4 := fun sum => by have held := sum.isLt; omega
  have bytes := encodeFixed_injective ((beBytes_length 4 _).symm ▸ fits)
    ((beBytes_length 4 _).trans (beBytes_length 4 _).symm) same
  have numbers := congrArg beNat bytes
  rw [beNat_beBytes_of_lt (small _), beNat_beBytes_of_lt (small _)] at numbers
  exact BitVec.eq_of_toNat_eq numbers

/-- A change of one character of the body changes its checksum. -/
theorem checksum_one_character {start : String} {before after : List Char} {old new : Char}
    (ascii : ∀ c ∈ before ++ old :: after, c.toNat < 128) (small : new.toNat < 128)
    (same : checksum start (String.ofList (before ++ old :: after)) =
      checksum start (String.ofList (before ++ new :: after))) : old = new := by
  have ascii' : ∀ c ∈ before ++ new :: after, c.toNat < 128 := by
    simp only [List.forall_mem_append, List.forall_mem_cons] at ascii ⊢
    exact ⟨ascii.1, small, ascii.2.2⟩
  have runs := crc32_injective_of_run (crc32_of_checksum same)
  rw [utf8_ofList_ascii ascii, utf8_ofList_ascii ascii', List.map_append, List.map_cons, List.map_append, List.map_cons,
    ← List.append_assoc, ← List.append_assoc] at runs
  have bytes := congrArg UInt8.toNat (Crc.run_one_byte (by decide) (by decide) runs)
  simp only [List.forall_mem_append, List.forall_mem_cons] at ascii
  rw [UInt8.toNat_ofNat', UInt8.toNat_ofNat', Nat.mod_eq_of_lt (by omega), Nat.mod_eq_of_lt (by omega)] at bytes
  exact Char.toNat_inj.mp bytes

/-- Of two parts, a character that stands within the first's length stands in the first. -/
theorem split_in_first {first second before after : List Char} {c : Char} (inside : before.length < first.length)
    (same : first ++ second = before ++ c :: after) : ∃ more, first = before ++ c :: more ∧ after = more ++ second := by
  obtain ⟨tail, ends, begins⟩ | ⟨tail, ends, begins⟩ := List.append_eq_append_iff.mp same
  · have short := congrArg List.length ends
    rw [List.length_append] at short
    omega
  · cases tail with
    | nil =>
      rw [List.append_nil] at ends
      rw [ends] at inside
      exact absurd inside (Nat.lt_irrefl _)
    | cons d more =>
      obtain ⟨rfl, rfl⟩ := List.cons.inj begins
      exact ⟨more, ends, rfl⟩

/-- Two checksummed texts of one shape that differ in one character are not both whole. -/
theorem one_character_of_checked {start : String} {left right : List UInt8} (size : left.length = right.length)
    {before after : List Char} {old new : Char}
    (first : (encodeFixed left).toList ++ (checksum start (encodeFixed left)).toList = before ++ old :: after)
    (second : (encodeFixed right).toList ++ (checksum start (encodeFixed right)).toList = before ++ new :: after) :
    old = new := by
  have wide := encodeFixed_toList_length left
  have wide' := encodeFixed_toList_length right
  rw [← size] at wide'
  by_cases inside : before.length < widthFor left.length
  · -- the character stands in the body, and the checksum is the same
    obtain ⟨more, body, rest⟩ := split_in_first (wide.symm ▸ inside) first
    obtain ⟨more', body', rest'⟩ := split_in_first (wide'.symm ▸ inside) second
    have sized : more.length = more'.length := by
      have long := congrArg List.length body
      have long' := congrArg List.length body'
      simp only [List.length_append, List.length_cons] at long long'
      omega
    obtain ⟨rfl, sums⟩ := List.append_inj (rest.symm.trans rest') sized
    have ascii := encodeFixed_ascii left
    have ascii' := encodeFixed_ascii right
    rw [body] at ascii
    rw [body'] at ascii'
    have same := String.toList_inj.mp sums
    have text : encodeFixed left = String.ofList (before ++ old :: more) := by rw [← body, String.ofList_toList]
    have text' : encodeFixed right = String.ofList (before ++ new :: more) := by rw [← body', String.ofList_toList]
    rw [text, text'] at same
    exact checksum_one_character ascii (ascii' new (by simp)) same
  · -- the character stands in the checksum, and the body is the same
    have bodies : (encodeFixed left).toList = (encodeFixed right).toList := by
      have cut := congrArg (List.take (widthFor left.length)) first
      have cut' := congrArg (List.take (widthFor left.length)) second
      rw [List.take_left' wide, List.take_append_of_le_length (by omega)] at cut
      rw [List.take_left' wide', List.take_append_of_le_length (by omega)] at cut'
      rw [cut, cut']
    rw [String.toList_inj.mp bodies, second] at first
    exact (List.cons.inj (List.append_cancel_left first)).1.symm

/-- A string that decodes no longer does with one character after the prefix replaced. -/
theorem decodeChecked_mistyped {start s typo : String} {n : Nat} (fits : WidthFits n) (mistyped : Mistyped start s typo)
    {bytes bytes' : List UInt8} (valid : decodeChecked start s n = .ok bytes) :
    decodeChecked start typo n ≠ .ok bytes' := by
  intro accepted
  obtain ⟨size, whole⟩ := (decodeChecked_eq_ok_iff fits).mp valid
  obtain ⟨size', whole'⟩ := (decodeChecked_eq_ok_iff fits).mp accepted
  obtain ⟨before, after, old, new, past, differs, here, there⟩ := mistyped
  rw [whole, encodeChecked_toList] at here
  rw [whole', encodeChecked_toList] at there
  have front := congrArg (List.take start.toList.length) here
  rw [List.take_left, List.take_append_of_le_length past] at front
  have parts := List.take_append_drop start.toList.length before
  rw [← front] at parts
  rw [← parts, List.append_assoc] at here there
  exact differs (one_character_of_checked (size.trans size'.symm) (List.append_cancel_left here)
    (List.append_cancel_left there)).symm

/-- Trimming does not help: what it takes away is missing. -/
theorem decodeChecked_trim_mistyped {start s typo : String} {n : Nat} (fits : WidthFits n)
    (mistyped : Mistyped start s typo) {bytes bytes' : List UInt8} (valid : decodeChecked start s n = .ok bytes) :
    decodeChecked start (trim typo) n ≠ .ok bytes' := by
  intro accepted
  obtain ⟨size, whole⟩ := (decodeChecked_eq_ok_iff fits).mp valid
  obtain ⟨size', whole'⟩ := (decodeChecked_eq_ok_iff fits).mp accepted
  have long : s.toList.length = typo.toList.length := by
    obtain ⟨before, after, old, new, _, _, here, there⟩ := mistyped
    simp [here, there]
  have kept : (trimBoth isWhitespace typo.toList).length = typo.toList.length := by
    have trimmed := congrArg (fun text => text.toList.length) whole'
    have untrimmed := congrArg (fun text => text.toList.length) whole
    simp only [trim, String.toList_ofList, encodeChecked_length, size, size'] at trimmed untrimmed
    omega
  have same : trim typo = typo := by rw [trim, trimBoth_eq_of_length kept, String.ofList_toList]
  rw [same] at accepted
  exact decodeChecked_mistyped fits mistyped valid accepted

theorem decodeNodeKey_encodeNodeKey (key : FixedBytes 32) : decodeNodeKey (encodeNodeKey key) = .ok key := by
  apply decodeNodeKey_of_checked
  rw [encodeNodeKey, trim_encodeChecked keyPrefix_plain]
  exact (decodeChecked_eq_ok_iff keyLen_fits).mpr ⟨key.size, rfl⟩

theorem parse_encode (id : TokenId) (vaultId : VaultId) (secret : FixedBytes 32) :
    TokenString.parse (TokenString.encode id vaultId secret) = .ok ⟨id, vaultId, secret⟩ := by
  apply parse_of_checked
  rw [TokenString.encode, trim_encodeChecked tokenPrefix_plain]
  exact (decodeChecked_eq_ok_iff tokenLen_fits).mpr ⟨TokenString.raw_length _, rfl⟩

/-- **Key and token strings are exact and typo-proof.** Their parts are read back, what is
accepted is the encoding of what is returned, and a string that is accepted is refused with
any one character after the prefix replaced. -/
theorem strings_exact_and_typo_proof :
    (∀ key, decodeNodeKey (encodeNodeKey key) = .ok key) ∧
      (∀ id vaultId secret, TokenString.parse (TokenString.encode id vaultId secret) = .ok ⟨id, vaultId, secret⟩) ∧
      (∀ (start s : String) (n : Nat) (bytes : List UInt8), WidthFits n → decodeChecked start s n = .ok bytes →
        bytes.length = n ∧ s = encodeChecked start bytes) ∧
      (∀ s typo bytes, Mistyped keyPrefix s typo → decodeChecked keyPrefix s keyLen = .ok bytes →
        (∃ e, decodeChecked keyPrefix typo keyLen = .error e) ∧ ∃ e, decodeNodeKey typo = .error e) ∧
      ∀ s typo bytes, Mistyped tokenPrefix s typo → decodeChecked tokenPrefix s tokenLen = .ok bytes →
        (∃ e, decodeChecked tokenPrefix typo tokenLen = .error e) ∧ ∃ e, TokenString.parse typo = .error e := by
  have refusal : ∀ {start typo : String} {n : Nat}, (∀ bytes, decodeChecked start typo n ≠ .ok bytes) →
      ∃ e, decodeChecked start typo n = .error e := by
    intro start typo n refused
    cases result : decodeChecked start typo n with
    | error e => exact ⟨e, rfl⟩
    | ok bytes => exact absurd result (refused bytes)
  refine ⟨decodeNodeKey_encodeNodeKey, parse_encode, ?_, ?_, ?_⟩
  · exact fun start s n bytes fits accepted => (decodeChecked_eq_ok_iff fits).mp accepted
  · intro s typo bytes mistyped valid
    exact ⟨refusal fun _ => decodeChecked_mistyped keyLen_fits mistyped valid,
      decodeNodeKey_refuses fun _ => decodeChecked_trim_mistyped keyLen_fits mistyped valid⟩
  · intro s typo bytes mistyped valid
    exact ⟨refusal fun _ => decodeChecked_mistyped tokenLen_fits mistyped valid,
      parse_refuses fun _ => decodeChecked_trim_mistyped tokenLen_fits mistyped valid⟩

end GalataVault.Formats
