import GalataVault.Formats.Envelopes
import GalataVault.Formats.LossyText
import GalataVault.Library.Occurrences

/-!
# Credential literals

What the client checks before a config leaves the process: that no line of it holds a
private key in PEM, a checksum-valid token or node key, or a hexadecimal private key. The
scan works with byte offsets into text, and a slice at an offset that is no character
boundary, or past the end, would panic: such a slice is `none` here.
-/

namespace GalataVault.Formats

open Proto Occurrences
open Server (isWhitespace)

/-! ## Slices of text -/

/-- The bytes a text takes in UTF-8. -/
def byteLen (text : List Char) : Nat := (text.map Char.utf8Size).sum

/-- `&text[offset..]`. -/
def textFrom (offset : Nat) (text : List Char) : Option (List Char) :=
  if offset = 0 then some text
  else
    match text with
    | [] => none
    | c :: rest => if c.utf8Size ≤ offset then textFrom (offset - c.utf8Size) rest else none

/-- `&text[..offset]`. -/
def textTo (offset : Nat) (text : List Char) : Option (List Char) :=
  if offset = 0 then some []
  else
    match text with
    | [] => none
    | c :: rest => if c.utf8Size ≤ offset then (textTo (offset - c.utf8Size) rest).map (c :: ·) else none

/-- The offset of the first occurrence of a pattern. -/
def find (pattern text : List Char) : Option Nat := (first pattern text).map fun parts => byteLen parts.1

/-- The offset of the first character that satisfies `p`. -/
def findChar (p : Char → Bool) : List Char → Option Nat
  | [] => none
  | c :: rest => if p c then some 0 else (findChar p rest).map (c.utf8Size + ·)

/-! ## The code -/

def isAsciiAlphanumeric (c : Char) : Bool :=
  ('0' ≤ c && c ≤ '9') || ('A' ≤ c && c ≤ 'Z') || ('a' ≤ c && c ≤ 'z')

def isToken (s : String) : Bool := (TokenString.parse s).toBool

def isNodeKey (s : String) : Bool := (decodeNodeKey s).toBool

/-- Look for a prefix whose run of letters and digits makes it a real credential; each
round goes on behind the prefix. -/
def scanPrefix (start : List Char) (valid : String → Bool) : Nat → List Char → Option Bool
  | 0, _ => none
  | fuel + 1, rest =>
    match find start rest with
    | none => some false
    | some offset => do
      let tail ← textFrom offset rest
      let behind ← textFrom (byteLen start) tail
      let run := (findChar (fun c => !isAsciiAlphanumeric c) behind).getD (byteLen tail - byteLen start)
      let candidate ← textTo (byteLen start + run) tail
      if valid (String.ofList candidate) then some true else scanPrefix start valid fuel behind

def isAsciiAlphanumericByte (b : UInt8) : Bool :=
  (0x30 ≤ b && b ≤ 0x39) || (0x41 ≤ b && b ≤ 0x5A) || (0x61 ≤ b && b ≤ 0x7A)

def isAsciiHexdigit (b : UInt8) : Bool :=
  (0x30 ≤ b && b ≤ 0x39) || (0x41 ≤ b && b ≤ 0x46) || (0x61 ≤ b && b ≤ 0x66)

/-- Whether a letter or digit stands right before a byte. -/
def followsAlphanumeric (bytes : List UInt8) (i : Nat) : Option Bool :=
  if 0 < i then (bytes[i - 1]?).map isAsciiAlphanumericByte else some false

/-- Whether a hexadecimal private key begins at a byte: `0x` or `0X`, not after a letter or
digit, and then exactly 64 digits with no letter or digit behind them. -/
def hexAt (bytes : List UInt8) (i : Nat) : Option Bool := do
  let zero ← bytes[i]?
  let x ← bytes[i + 1]?
  if zero ≠ 0x30 ∨ ¬ (x = 0x78 ∨ x = 0x58) then some false
  else
    let follows ← followsAlphanumeric bytes i
    if follows then some false
    else
      let rest ← sliceFrom bytes (i + 2)
      let digits := (rest.takeWhile isAsciiHexdigit).length
      let after := bytes[i + 2 + digits]?
      some (digits = 64 ∧ ¬ after.any isAsciiAlphanumericByte)

/-- What kind of credential stands in a line, if one does. -/
def literalIn (line : List Char) : Option (Option String) :=
  if (first "-----BEGIN".toList line).isSome ∧ (first "PRIVATE KEY-----".toList line).isSome then
    some (some "PEM private key")
  else do
    let token ← scanPrefix tokenPrefix.toList isToken (line.length + 1) line
    if token then some (some "galata-vault token")
    else
      let key ← scanPrefix keyPrefix.toList isNodeKey (line.length + 1) line
      if key then some (some "galata-vault node key")
      else
        let bytes := utf8 (String.ofList line)
        let hex ← (List.range (bytes.length - 1)).anyM (hexAt bytes)
        if hex then some (some "hex private key") else some none

/-- A failure this process finds itself. -/
structure LocalError where
  code : String
  message : String
deriving DecidableEq

def scanLines : Nat → List (List Char) → Option (Except LocalError Unit)
  | _, [] => some (.ok ())
  | i, line :: rest => do
    let found ← literalIn line
    match found with
    | some kind =>
      some <| .error
        { code := "credential_literal"
          message := s!"line {i + 1}: a {kind} in a config. Config tokens can read configs, so a key here is a key " ++
            "for every config reader; keep it in a secret, or allow literals for this one write" }
    | none => scanLines (i + 1) rest

/-- Refuse a body that holds a credential literal. -/
def scanLiterals (body : List UInt8) : Option (Except LocalError Unit) :=
  scanLines 0 ((fromUtf8Lossy body).splitOn '\n')

/-! ## Offsets -/

@[simp] theorem byteLen_nil : byteLen [] = 0 := rfl

@[simp] theorem byteLen_cons (c : Char) (rest : List Char) : byteLen (c :: rest) = c.utf8Size + byteLen rest := rfl

@[simp] theorem byteLen_append (front back : List Char) : byteLen (front ++ back) = byteLen front + byteLen back := by
  simp [byteLen]

/-- A slice from where a part ends is what follows the part. -/
@[simp] theorem textFrom_append (front back : List Char) : textFrom (byteLen front) (front ++ back) = some back := by
  induction front with
  | nil => cases back <;> rfl
  | cons c front inductionHypothesis =>
    have positive := c.utf8Size_pos
    rw [List.cons_append, byteLen_cons, textFrom, if_neg (by omega)]
    rw [if_pos (Nat.le_add_right ..), Nat.add_sub_cancel_left, inductionHypothesis]

/-- A slice up to where a part ends is the part. -/
@[simp] theorem textTo_append (front back : List Char) : textTo (byteLen front) (front ++ back) = some front := by
  induction front with
  | nil => cases back <;> rfl
  | cons c front inductionHypothesis =>
    have positive := c.utf8Size_pos
    rw [List.cons_append, byteLen_cons, textTo, if_neg (by omega)]
    rw [if_pos (Nat.le_add_right ..), Nat.add_sub_cancel_left, inductionHypothesis]
    rfl

/-- The first character outside a run is found where the run ends. -/
theorem findChar_run (p : Char → Bool) (text : List Char) :
    (findChar (fun c => !p c) text).getD (byteLen text) = byteLen (text.takeWhile p) := by
  induction text with
  | nil => rfl
  | cons c rest inductionHypothesis =>
    cases runs : p c with
    | false => simp [findChar, runs]
    | true =>
      rw [findChar, runs, List.takeWhile_cons_of_pos runs, byteLen_cons, byteLen_cons, ← inductionHypothesis]
      cases findChar (fun c => !p c) rest <;> rfl

/-! ## Prefixes -/

/-- What the characters behind a prefix are accepted with: their run of letters and digits. -/
def Accepted (start : List Char) (valid : String → Bool) (after : List Char) : Prop :=
  valid (String.ofList (start ++ after.takeWhile isAsciiAlphanumeric)) = true

/-- One round of the scan: the run behind the first occurrence is sliced whole, and if it is
not accepted the scan goes on behind the prefix. -/
theorem scanPrefix_round {pre : List Char} (valid : String → Bool) (fuel : Nat) {text before after : List Char}
    (search : first pre text = some (before, after)) :
    scanPrefix pre valid (fuel + 1) text =
      if valid (String.ofList (pre ++ after.takeWhile isAsciiAlphanumeric)) then some true
      else scanPrefix pre valid fuel after := by
  obtain ⟨stands, _⟩ := first_eq_some search
  have split : text = before ++ (pre ++ after) := stands.trans (List.append_assoc ..)
  have tail : textFrom (byteLen before) text = some (pre ++ after) := by rw [split, textFrom_append]
  have run : (findChar (fun c => !isAsciiAlphanumeric c) after).getD (byteLen (pre ++ after) - byteLen pre) =
      byteLen (after.takeWhile isAsciiAlphanumeric) := by
    rw [byteLen_append, Nat.add_sub_cancel_left, findChar_run]
  have candidate : textTo (byteLen pre + byteLen (after.takeWhile isAsciiAlphanumeric)) (pre ++ after) =
      some (pre ++ after.takeWhile isAsciiAlphanumeric) := by
    have parts : pre ++ after = (pre ++ after.takeWhile isAsciiAlphanumeric) ++ after.dropWhile isAsciiAlphanumeric := by
      rw [List.append_assoc, List.takeWhile_append_dropWhile]
    rw [parts, ← byteLen_append, textTo_append]
  rw [scanPrefix, find, search]
  simp only [Option.map_some, tail, Option.bind_eq_bind, Option.bind_some, textFrom_append, run, candidate]

/-- The scan slices at character boundaries only, and finds an accepted prefix exactly when
one stands anywhere. The induction is on the rounds: behind the first occurrence stand all
others, because the prefix cannot overlap itself. -/
theorem scanPrefix_exact {head : Char} {more : List Char} (apart : head ∉ more) (valid : String → Bool) {fuel : Nat}
    {text : List Char} (enough : text.length < fuel) :
    ∃ found, scanPrefix (head :: more) valid fuel text = some found ∧
      (found = true ↔ ∃ before after, Stands (head :: more) before after text ∧ Accepted (head :: more) valid after) := by
  induction fuel generalizing text with
  | zero => omega
  | succ fuel inductionHypothesis =>
    cases search : first (head :: more) text with
    | none =>
      refine ⟨false, ?_, ?_⟩
      · rw [scanPrefix, find, search]
        rfl
      · simp only [Bool.false_eq_true, false_iff]
        rintro ⟨before, after, stands, _⟩
        exact first_eq_none search before after stands
    | some parts =>
      obtain ⟨before, after⟩ := parts
      obtain ⟨stands, least⟩ := first_eq_some search
      have split : text = before ++ ((head :: more) ++ after) := stands.trans (List.append_assoc ..)
      rw [scanPrefix_round valid fuel search]
      cases accepted : valid (String.ofList ((head :: more) ++ after.takeWhile isAsciiAlphanumeric)) with
      | true => exact ⟨true, rfl, iff_of_true rfl ⟨before, after, stands, accepted⟩⟩
      | false =>
        have shorter : after.length < fuel := by
          rw [split] at enough
          simp only [List.length_append, List.length_cons] at enough
          omega
        obtain ⟨found, ran, exactly⟩ := inductionHypothesis shorter
        refine ⟨found, ran, exactly.trans ⟨?_, ?_⟩⟩
        · rintro ⟨front, back, later, holds⟩
          refine ⟨before ++ (head :: more) ++ front, back, ?_, holds⟩
          rw [Stands, stands, later]
          simp only [List.append_assoc]
        · rintro ⟨front, back, other, holds⟩
          obtain order | same := Nat.lt_or_eq_of_le (least front back other)
          · obtain ⟨between, _, later⟩ := stands.behind apart other order
            exact ⟨between, back, later, holds⟩
          · -- The occurrence that was found is not accepted.
            have equal : before ++ ((head :: more) ++ after) = front ++ ((head :: more) ++ back) := by
              rw [← split, ← List.append_assoc]
              exact other
            obtain ⟨_, rest⟩ := List.append_inj equal same
            obtain rfl := List.append_cancel_left rest
            rw [Accepted, accepted] at holds
            cases holds

/-! ## Letters and digits -/

theorem agree_alphanumeric : Agree isAsciiAlphanumericByte isAsciiAlphanumeric where
  ascii := by decide +kernel
  wideByte := by decide +kernel
  wideChar c wide := by
    by_contra letter
    rw [Bool.not_eq_false] at letter
    simp only [isAsciiAlphanumeric, Bool.or_eq_true, Bool.and_eq_true, decide_eq_true_eq, Char.le_def,
      UInt32.le_iff_toNat_le] at letter
    change 128 ≤ c.val.toNat at wide
    have bounds : ('9'.val.toNat = 57 ∧ 'Z'.val.toNat = 90) ∧ 'z'.val.toNat = 122 := by decide
    omega

/-- A hexadecimal digit of either case. -/
def isHexdigit (c : Char) : Bool := (hexValue c).isSome

theorem agree_hexdigit : Agree isAsciiHexdigit isHexdigit where
  ascii := by decide +kernel
  wideByte := by decide +kernel
  wideChar c wide := by
    by_contra digit
    rw [Bool.not_eq_false, isHexdigit] at digit
    unfold hexValue at digit
    change 128 ≤ c.val.toNat at wide
    have bounds : ('9'.val.toNat = 57 ∧ 'f'.val.toNat = 102) ∧ 'F'.val.toNat = 70 := by decide
    simp only [Char.le_def, UInt32.le_iff_toNat_le] at digit
    split at digit
    · omega
    · split at digit
      · omega
      · split at digit
        · omega
        · cases digit

/-! ## Checksummed strings -/

/-- No letter or digit comes first. -/
def Ends (text : List Char) : Prop := ∀ c ∈ text.head?, isAsciiAlphanumeric c = false

/-- A line holds a checksum-valid string of `n` bytes, and its letters and digits go on no
further. -/
def HoldsChecked (start : String) (n : Nat) (line : List Char) : Prop :=
  ∃ bytes before after, bytes.length = n ∧ Stands (encodeChecked start bytes).toList before after line ∧ Ends after

theorem isToken_iff {s : String} :
    isToken s = true ↔ ∃ bytes, bytes.length = tokenLen ∧ trim s = encodeChecked tokenPrefix bytes := by
  simp only [← decodeChecked_eq_ok_iff tokenLen_fits]
  unfold isToken TokenString.parse
  split
  · next refused => simp [Except.toBool, refused]
  · next raw read => simp [Except.toBool, read]

theorem isNodeKey_iff {s : String} :
    isNodeKey s = true ↔ ∃ bytes, bytes.length = keyLen ∧ trim s = encodeChecked keyPrefix bytes := by
  simp only [← decodeChecked_eq_ok_iff keyLen_fits]
  unfold isNodeKey decodeNodeKey
  split
  · next refused => simp [Except.toBool, refused]
  · next raw read => simp [Except.toBool, read]

theorem alphanumeric_plain {c : Char} (letter : isAsciiAlphanumeric c = true) : isWhitespace c = false := by
  have all : ∀ n < 128, isAsciiAlphanumeric (Char.ofNat n) = true → isWhitespace (Char.ofNat n) = false := by
    decide +kernel
  have char := all c.toNat (agree_alphanumeric.char_lt letter)
  rw [Char.ofNat_toNat] at char
  exact char letter

theorem encodeFixed_alphanumeric (bytes : List UInt8) :
    ∀ c ∈ (encodeFixed bytes).toList, isAsciiAlphanumeric c = true := by
  have digits : ∀ d < 62, isAsciiAlphanumeric (Char.ofNat (digitAt d).toNat) = true := by decide +kernel
  rw [encodeFixed_eq, asciiText_toList]
  simp only [encodedBytes, List.forall_mem_map]
  exact fun d stands => digits d (Radix.digits_small (by decide) _ _ d stands)

/-- Behind an accepted prefix stands the rest of a checksummed string, and behind every
such string nothing that would be read with it. -/
theorem holdsChecked_iff {start : String} {n : Nat} {valid : String → Bool}
    (plain : ∀ c ∈ start.toList, isWhitespace c = false)
    (decides : ∀ s, valid s = true ↔ ∃ bytes, bytes.length = n ∧ trim s = encodeChecked start bytes) {line : List Char} :
    (∃ before after, Stands start.toList before after line ∧ Accepted start.toList valid after) ↔
      HoldsChecked start n line := by
  constructor
  · rintro ⟨before, after, stands, accepted⟩
    obtain ⟨bytes, size, read⟩ := (decides _).mp accepted
    have kept : ∀ c ∈ start.toList ++ after.takeWhile isAsciiAlphanumeric, isWhitespace c = false := by
      rw [List.forall_mem_append]
      exact ⟨plain, fun c member => alphanumeric_plain (List.mem_takeWhile_imp member)⟩
    have whole : start.toList ++ after.takeWhile isAsciiAlphanumeric = (encodeChecked start bytes).toList := by
      rw [← read, trim, String.toList_ofList, String.toList_ofList]
      exact (trimBoth_eq_self (fun c first => kept c (List.mem_of_mem_head? first))
        (fun c last => kept c (List.mem_of_getLast? last))).symm
    refine ⟨bytes, before, after.dropWhile isAsciiAlphanumeric, size, ?_, fun c first => ?_⟩
    · rw [Stands, ← whole, stands]
      simp only [List.append_assoc, List.takeWhile_append_dropWhile]
    · have behind := List.head?_dropWhile_not isAsciiAlphanumeric after
      rw [Option.mem_def.mp first] at behind
      simpa using behind
  · rintro ⟨bytes, before, after, size, stands, ends⟩
    have letters : ∀ c ∈ (encodeFixed bytes).toList ++ (checksum start (encodeFixed bytes)).toList,
        isAsciiAlphanumeric c = true := by
      rw [List.forall_mem_append]
      exact ⟨encodeFixed_alphanumeric _, encodeFixed_alphanumeric _⟩
    rw [encodeChecked_toList] at stands
    have run : ((encodeFixed bytes).toList ++ (checksum start (encodeFixed bytes)).toList ++ after).takeWhile
        isAsciiAlphanumeric = (encodeFixed bytes).toList ++ (checksum start (encodeFixed bytes)).toList := by
      rw [List.takeWhile_append_of_pos letters]
      cases after with
      | nil => simp
      | cons c after => simp [ends c rfl]
    refine ⟨before, (encodeFixed bytes).toList ++ (checksum start (encodeFixed bytes)).toList ++ after, ?_,
      (decides _).mpr ⟨bytes, size, ?_⟩⟩
    · rw [Stands, stands]
      simp only [List.append_assoc]
    · rw [run, ← encodeChecked_toList, String.ofList_toList, trim_encodeChecked plain]

/-- The scan for a checksummed string, in any line. -/
theorem scanPrefix_checked {start : String} {n : Nat} {valid : String → Bool} {head : Char} {more : List Char}
    (spelled : start.toList = head :: more) (apart : head ∉ more) (plain : ∀ c ∈ start.toList, isWhitespace c = false)
    (decides : ∀ s, valid s = true ↔ ∃ bytes, bytes.length = n ∧ trim s = encodeChecked start bytes) (line : List Char) :
    ∃ found, scanPrefix start.toList valid (line.length + 1) line = some found ∧
      (found = true ↔ HoldsChecked start n line) := by
  obtain ⟨found, ran, exactly⟩ := scanPrefix_exact apart valid (Nat.lt_succ_self line.length)
  rw [← spelled] at ran exactly
  exact ⟨found, ran, exactly.trans (holdsChecked_iff plain decides)⟩

/-! ## Hexadecimal keys -/

/-- What stands behind `0` and the mark is a key's digits: exactly 64, and no letter or
digit behind them. -/
def KeyDigits (rest : List UInt8) : Prop :=
  (rest.takeWhile isAsciiHexdigit).length = 64 ∧ (rest.dropWhile isAsciiHexdigit).head?.any isAsciiAlphanumericByte = false

instance (rest : List UInt8) : Decidable (KeyDigits rest) := inferInstanceAs (Decidable (_ ∧ _))

/-- Two bytes begin a hexadecimal key between these parts. -/
def BeginsKey (before : List UInt8) (zero x : UInt8) (rest : List UInt8) : Prop :=
  (zero = 0x30 ∧ (x = 0x78 ∨ x = 0x58)) ∧ before.getLast?.any isAsciiAlphanumericByte = false ∧ KeyDigits rest

instance (before : List UInt8) (zero x : UInt8) (rest : List UInt8) : Decidable (BeginsKey before zero x rest) :=
  inferInstanceAs (Decidable (_ ∧ _ ∧ _))

/-- The check at a byte reads no byte that is not there. -/
theorem hexAt_split (before : List UInt8) (zero x : UInt8) (rest : List UInt8) :
    hexAt (before ++ zero :: x :: rest) before.length = some (decide (BeginsKey before zero x rest)) := by
  have first : (before ++ zero :: x :: rest)[before.length]? = some zero := by simp
  have second : (before ++ zero :: x :: rest)[before.length + 1]? = some x := by
    rw [List.getElem?_append_right (Nat.le_add_right ..), Nat.add_sub_cancel_left]
    rfl
  have dropped : (before ++ zero :: x :: rest).drop (before.length + 2) = rest := List.drop_length_add_append 2
  have slice : sliceFrom (before ++ zero :: x :: rest) (before.length + 2) = some rest := by
    rw [sliceFrom, if_pos (by simp), dropped]
  have follows : followsAlphanumeric (before ++ zero :: x :: rest) before.length =
      some (before.getLast?.any isAsciiAlphanumericByte) := by
    obtain rfl | ⟨front, b, rfl⟩ := List.eq_nil_or_concat' before
    · rfl
    · have length : (front ++ [b]).length - 1 = front.length := by simp
      rw [followsAlphanumeric, if_pos (by simp), length, List.append_assoc,
        List.getElem?_append_right (Nat.le_refl _), Nat.sub_self]
      simp
  have next : (before ++ zero :: x :: rest)[before.length + 2 + (rest.takeWhile isAsciiHexdigit).length]? =
      (rest.dropWhile isAsciiHexdigit).head? := by
    have behind (front back : List UInt8) : (front ++ back)[front.length]? = back.head? := by
      rw [List.getElem?_append_right (Nat.le_refl _), Nat.sub_self, List.head?_eq_getElem?]
    have parts : rest = rest.takeWhile isAsciiHexdigit ++ rest.dropWhile isAsciiHexdigit :=
      List.takeWhile_append_dropWhile.symm
    rw [← List.getElem?_drop, dropped]
    exact (congrArg (·[(rest.takeWhile isAsciiHexdigit).length]?) parts).trans (behind _ _)
  unfold hexAt
  rw [first, second]
  simp only [Option.bind_eq_bind, Option.bind_some, follows, slice, next]
  by_cases marked : zero = 0x30 ∧ (x = 0x78 ∨ x = 0x58)
  · rw [if_neg (by tauto)]
    cases bounded : before.getLast?.any isAsciiAlphanumericByte with
    | true => simp [BeginsKey, bounded]
    | false => simp [BeginsKey, bounded, marked, KeyDigits]
  · rw [if_pos (by tauto)]
    simp [BeginsKey, marked]

/-- A search that no step of fails finds what passes. -/
theorem anyM_of_total {α : Type} {f : α → Option Bool} {g : α → Bool} {l : List α} (total : ∀ a ∈ l, f a = some (g a)) :
    l.anyM f = some (l.any g) := by
  induction l with
  | nil => rfl
  | cons a l inductionHypothesis =>
    simp only [List.forall_mem_cons] at total
    rw [List.anyM, total.1, List.any_cons, Option.bind_eq_bind, Option.bind_some, inductionHypothesis total.2]
    cases g a <;> rfl

theorem keyDigits_iff {rest : List UInt8} : KeyDigits rest ↔ ∃ digits after, rest = digits ++ after ∧ digits.length = 64 ∧
    (∀ b ∈ digits, isAsciiHexdigit b = true) ∧ after.head?.any isAsciiAlphanumericByte = false := by
  constructor
  · rintro ⟨size, ends⟩
    exact ⟨rest.takeWhile isAsciiHexdigit, rest.dropWhile isAsciiHexdigit, List.takeWhile_append_dropWhile.symm, size,
      fun b member => List.mem_takeWhile_imp member, ends⟩
  · rintro ⟨digits, after, rfl, size, all, ends⟩
    have letter : ∀ n < 256, isAsciiHexdigit (UInt8.ofNat n) = true → isAsciiAlphanumericByte (UInt8.ofNat n) = true := by
      decide +kernel
    have stops : after.takeWhile isAsciiHexdigit = [] ∧ after.dropWhile isAsciiHexdigit = after := by
      cases after with
      | nil => exact ⟨rfl, rfl⟩
      | cons b after =>
        have other : isAsciiHexdigit b = false := by
          by_contra digit
          have passes := letter b.toNat b.toNat_lt
          rw [UInt8.ofNat_toNat] at passes
          rw [List.head?_cons, Option.any_some, passes (by simpa using digit)] at ends
          cases ends
        simp [other]
    unfold KeyDigits
    rw [List.takeWhile_append_of_pos all, List.dropWhile_append_of_pos all, stops.1, stops.2, List.append_nil]
    exact ⟨size, ends⟩

/-- A line holds `0`, a mark and exactly 64 hexadecimal digits, with no letter or digit on
either side. -/
def HoldsHex (marks line : List Char) : Prop :=
  ∃ before x digits after, line = before ++ '0' :: x :: (digits ++ after) ∧ x ∈ marks ∧ digits.length = 64 ∧
    (∀ c ∈ digits, isHexdigit c = true) ∧ Ends before.reverse ∧ Ends after

theorem ends_iff {text : List Char} : Ends text ↔ text.head?.any isAsciiAlphanumeric = false := by
  unfold Ends
  cases text.head? <;> simp

/-- The characters of a line hold a key exactly when its bytes do. -/
theorem holdsHex_iff {line : List Char} :
    (∃ before zero x rest, encode line = before ++ zero :: x :: rest ∧ BeginsKey before zero x rest) ↔
      HoldsHex ['x', 'X'] line := by
  constructor
  · rintro ⟨before, zero, x, rest, bytes, ⟨rfl, mark⟩, follows, key⟩
    obtain ⟨digits, after, rfl, size, all, ends⟩ := keyDigits_iff.mp key
    obtain ⟨front, back, rfl, rfl, tail⟩ := split_at_ascii (by decide) bytes
    have ascii : ∀ b ∈ x :: digits, b.toNat < 128 := by
      rw [List.forall_mem_cons]
      refine ⟨?_, fun b member => agree_hexdigit.toNat_lt (all b member)⟩
      obtain rfl | rfl := mark <;> decide
    obtain ⟨last, rfl, rfl⟩ := split_ascii ascii tail
    refine ⟨front, Char.ofNat x.toNat, digits.map fun b => Char.ofNat b.toNat, last, rfl, ?_, by rw [List.length_map, size],
      ?_, ?_, ?_⟩
    · obtain rfl | rfl := mark <;> decide
    · simp only [List.forall_mem_map]
      intro b member
      rw [← agree_hexdigit.ofNat (agree_hexdigit.toNat_lt (all b member)), all b member]
    · rw [ends_iff, List.head?_reverse, ← agree_alphanumeric.last, follows]
    · rw [ends_iff, ← agree_alphanumeric.head, ends]
  · rintro ⟨before, x, digits, after, rfl, mark, size, all, follows, ends⟩
    have ascii : ∀ c ∈ digits, c.toNat < 128 := fun c member => agree_hexdigit.char_lt (all c member)
    have marked : x.toNat < 128 ∧ (UInt8.ofNat x.toNat = 0x78 ∨ UInt8.ofNat x.toNat = 0x58) := by
      simp only [List.mem_cons, List.not_mem_nil, or_false] at mark
      obtain rfl | rfl := mark <;> decide
    refine ⟨encode before, 0x30, UInt8.ofNat x.toNat, encode digits ++ encode after, ?_, ⟨rfl, marked.2⟩, ?_, ?_⟩
    · rw [encode_append, encode_cons, encode_cons, encode_append, encodeChar_ascii marked.1,
        encodeChar_ascii (by decide : '0'.toNat < 128)]
      rfl
    · rw [agree_alphanumeric.last, ← List.head?_reverse, ends_iff.mp follows]
    · refine keyDigits_iff.mpr ⟨_, _, rfl, ?_, ?_, ?_⟩
      · rw [encode_ascii ascii, List.length_map, size]
      · rw [encode_ascii ascii]
        simp only [List.forall_mem_map]
        intro c member
        rw [agree_hexdigit.ascii _ (ascii c member), Char.ofNat_toNat, all c member]
      · rw [agree_alphanumeric.head, ends_iff.mp ends]

/-- The search for hexadecimal keys reads no byte that is not there, and finds one in every
line that holds one. -/
theorem hexAt_exact (line : List Char) :
    ∃ found, (List.range ((encode line).length - 1)).anyM (hexAt (encode line)) = some found ∧
      (found = true ↔ HoldsHex ['x', 'X'] line) := by
  have parts {i : Nat} (inside : i < (encode line).length - 1) : ∃ before zero x rest,
      encode line = before ++ zero :: x :: rest ∧ before.length = i := by
    have here : (encode line).drop i = (encode line)[i] :: (encode line)[i + 1] :: (encode line).drop (i + 2) := by
      rw [List.drop_eq_getElem_cons (by omega), List.drop_eq_getElem_cons (by omega)]
    refine ⟨(encode line).take i, (encode line)[i], (encode line)[i + 1], (encode line).drop (i + 2), ?_, ?_⟩
    · rw [← here, List.take_append_drop]
    · rw [List.length_take]
      omega
  have total : ∀ i ∈ List.range ((encode line).length - 1),
      hexAt (encode line) i = some ((hexAt (encode line) i).getD false) := by
    intro i member
    obtain ⟨before, zero, x, rest, bytes, rfl⟩ := parts (List.mem_range.mp member)
    rw [bytes, hexAt_split]
    rfl
  refine ⟨_, anyM_of_total total, ?_⟩
  rw [← holdsHex_iff, List.any_eq_true]
  constructor
  · rintro ⟨i, member, found⟩
    obtain ⟨before, zero, x, rest, bytes, rfl⟩ := parts (List.mem_range.mp member)
    rw [bytes, hexAt_split] at found
    exact ⟨before, zero, x, rest, bytes, of_decide_eq_true found⟩
  · rintro ⟨before, zero, x, rest, bytes, begins⟩
    refine ⟨before.length, List.mem_range.mpr ?_, ?_⟩
    · rw [bytes]
      simp only [List.length_append, List.length_cons]
      omega
    · rw [bytes, hexAt_split]
      exact decide_eq_true begins

/-! ## Lines -/

/-- What the scan refuses in a line: both PEM markers, a checksum-valid token or node key,
or a hexadecimal key under one of these marks. -/
def HoldsLiteral (marks line : List Char) : Prop :=
  ("-----BEGIN".toList <:+: line ∧ "PRIVATE KEY-----".toList <:+: line) ∨
    HoldsChecked tokenPrefix tokenLen line ∨ HoldsChecked keyPrefix keyLen line ∨ HoldsHex marks line

theorem first_isSome_iff_infix {pattern line : List Char} : (first pattern line).isSome = true ↔ pattern <:+: line := by
  rw [first_isSome_iff]
  constructor
  · rintro ⟨before, after, stands⟩
    exact ⟨before, after, stands.symm⟩
  · rintro ⟨before, after, stands⟩
    exact ⟨before, after, stands.symm⟩

/-- The scan of a line never slices out of range, and names a credential exactly when the
line holds one. -/
theorem literalIn_exact (line : List Char) :
    ∃ found, literalIn line = some found ∧ (found.isSome = true ↔ HoldsLiteral ['x', 'X'] line) := by
  have token : tokenPrefix.toList = 'g' :: ['v', 't', '1', '_'] := by simp [tokenPrefix]
  have key : keyPrefix.toList = 'g' :: ['v', 'k', '1', '_'] := by simp [keyPrefix]
  obtain ⟨tokens, tokensRan, tokensIff⟩ :=
    scanPrefix_checked token (by decide) tokenPrefix_plain (fun _ => isToken_iff) line
  obtain ⟨keys, keysRan, keysIff⟩ := scanPrefix_checked key (by decide) keyPrefix_plain (fun _ => isNodeKey_iff) line
  obtain ⟨hexes, hexesRan, hexesIff⟩ := hexAt_exact line
  unfold literalIn HoldsLiteral
  rw [← first_isSome_iff_infix, ← first_isSome_iff_infix, ← tokensIff, ← keysIff, ← hexesIff, utf8_ofList]
  split
  · next markers => exact ⟨_, rfl, iff_of_true rfl (Or.inl markers)⟩
  · next absent =>
    simp only [tokensRan, keysRan, hexesRan, Option.bind_eq_bind, Option.bind_some]
    cases tokens with
    | true => exact ⟨_, rfl, iff_of_true rfl (Or.inr (Or.inl rfl))⟩
    | false =>
      cases keys with
      | true => exact ⟨_, rfl, iff_of_true rfl (Or.inr (Or.inr (Or.inl rfl)))⟩
      | false =>
        cases hexes with
        | true => exact ⟨_, rfl, iff_of_true rfl (Or.inr (Or.inr (Or.inr rfl)))⟩
        | false => exact ⟨_, rfl, by simpa using fun first second => absent ⟨first, second⟩⟩

theorem scanLines_exact (i : Nat) (lines : List (List Char)) :
    ∃ result, scanLines i lines = some result ∧
      ((∃ failure, result = .error failure) ↔ ∃ line ∈ lines, HoldsLiteral ['x', 'X'] line) := by
  induction lines generalizing i with
  | nil => exact ⟨.ok (), rfl, by simp⟩
  | cons line lines inductionHypothesis =>
    obtain ⟨found, ran, holds⟩ := literalIn_exact line
    simp only [scanLines, ran, Option.bind_eq_bind, Option.bind_some, List.exists_mem_cons_iff, ← holds]
    cases found with
    | some kind => exact ⟨_, rfl, by simp⟩
    | none =>
      obtain ⟨result, rest, refused⟩ := inductionHypothesis (i + 1)
      exact ⟨result, rest, by simpa using refused⟩

/-- Every body is scanned without an access out of range, and refused exactly when a line
of it, decoded lossily, holds a credential literal. -/
theorem scan_exact (body : List UInt8) :
    ∃ result, scanLiterals body = some result ∧
      ((∃ failure, result = .error failure) ↔
        ∃ line ∈ (fromUtf8Lossy body).splitOn '\n', HoldsLiteral ['x', 'X'] line) :=
  scanLines_exact 0 _

/-- A literal needs a dash, the first letter of a prefix or a mark. -/
theorem mem_of_holdsLiteral {marks line : List Char} (holds : HoldsLiteral marks line) :
    '-' ∈ line ∨ 'g' ∈ line ∨ ∃ x ∈ marks, x ∈ line := by
  have checked {start : String} {n : Nat} (begins : 'g' ∈ start.toList) (holds : HoldsChecked start n line) : 'g' ∈ line := by
    obtain ⟨bytes, before, after, _, stands, _⟩ := holds
    rw [stands, encodeChecked_toList]
    simp [begins]
  obtain ⟨marker, _⟩ | token | key | ⟨before, x, digits, after, rfl, mark, _⟩ := holds
  · exact Or.inl (marker.subset (by decide))
  · exact Or.inr (Or.inl (checked (by simp [tokenPrefix]) token))
  · exact Or.inr (Or.inl (checked (by simp [keyPrefix]) key))
  · exact Or.inr (Or.inr ⟨x, mark, by simp⟩)

/-- 64 zeros behind `0X`. -/
def upperHex : List Char := '0' :: 'X' :: List.replicate 64 '0'

/-- `0X` and 64 digits are refused, and no line of them holds `0x`. -/
theorem upper_mark_refused :
    ¬ ∀ body result, scanLiterals body = some result →
      ((∃ failure, result = .error failure) ↔ ∃ line ∈ (fromUtf8Lossy body).splitOn '\n', HoldsLiteral ['x'] line) := by
  intro claimed
  have single : (fromUtf8Lossy (encode upperHex)).splitOn '\n' = [upperHex] := by
    rw [fromUtf8Lossy_encode]
    exact List.splitOn_eq_singleton (by decide)
  obtain ⟨result, ran, refused⟩ := scan_exact (encode upperHex)
  have failure : ∃ failure, result = .error failure := by
    refine refused.mpr ⟨upperHex, by simp [single], Or.inr (Or.inr (Or.inr ?_))⟩
    have digits : ∀ c ∈ List.replicate 64 '0', isHexdigit c = true := by
      intro c member
      rw [List.eq_of_mem_replicate member]
      decide
    exact ⟨[], 'X', List.replicate 64 '0', [], by simp [upperHex], by simp, by simp, digits, by simp [Ends], by simp [Ends]⟩
  obtain ⟨line, member, holds⟩ := (claimed (encode upperHex) result ran).mp failure
  rw [single, List.mem_singleton] at member
  subst member
  simpa [upperHex] using mem_of_holdsLiteral holds

end GalataVault.Formats
