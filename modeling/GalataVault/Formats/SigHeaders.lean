import GalataVault.Formats.Checked

/-!
# Request signature headers

`Authorization: GV-Sig …` carries a request signature as parameters between commas, in any
order and with white space around each. The parser fills one slot for each parameter it
knows, once, and only then decodes them, so a header has one reading or none.
-/

namespace GalataVault.Proto

open Formats (stripPrefix stripPrefix_eq_some_iff)
open Server (trimBoth isWhitespace splitOnce)

/-! ## Decoding -/

/-- The value of a character of unpadded base64url. -/
def base64Value (c : Char) : Option Nat :=
  "ABCDEFGHIJKLMNOPQRSTUVWXYZabcdefghijklmnopqrstuvwxyz0123456789-_".toList.idxOf? c

/-- The bytes a text spells in base64url: no padding, and no bits left over. -/
def fromBase64Chars : List Char → Option (List UInt8)
  | [] => some []
  | [_] => none
  | [x, y] => do
    let a ← base64Value x
    let b ← base64Value y
    if b % 16 = 0 then some [UInt8.ofNat (a * 4 + b / 16)] else none
  | [x, y, z] => do
    let a ← base64Value x
    let b ← base64Value y
    let c ← base64Value z
    if c % 4 = 0 then some [UInt8.ofNat (a * 4 + b / 16), UInt8.ofNat (b % 16 * 16 + c / 4)] else none
  | x :: y :: z :: w :: rest => do
    let a ← base64Value x
    let b ← base64Value y
    let c ← base64Value z
    let d ← base64Value w
    let bytes ← fromBase64Chars rest
    pure (UInt8.ofNat (a * 4 + b / 16) :: UInt8.ofNat (b % 16 * 16 + c / 4) :: UInt8.ofNat (c % 4 * 64 + d) :: bytes)

/-- Exactly `n` bytes in base64url, and nothing else. -/
def decodeFixed (n : Nat) (text : List Char) : Option (FixedBytes n) := do
  let bytes ← fromBase64Chars text
  if size : bytes.length = n then some ⟨bytes, size⟩ else none

/-- The number that decimal digits spell; there is at least one. -/
def decimal (digits : List Char) : Option Nat :=
  if digits ≠ [] ∧ digits.all Char.isDigit then some (Nat.ofDigitChars 10 digits 0) else none

/-- Rust's `parse` for a signed 64-bit integer: an optional sign and at least one digit. -/
def parseI64 : List Char → Option Int
  | '-' :: digits => (decimal digits).bind fun n => if n ≤ 2 ^ 63 then some (-(n : Int)) else none
  | '+' :: digits => (decimal digits).bind fun n => if n < 2 ^ 63 then some (n : Int) else none
  | digits => (decimal digits).bind fun n => if n < 2 ^ 63 then some (n : Int) else none

/-! ## The code -/

def scheme : String := "GV-Sig"
/-- The only accepted `v=`. -/
def sigVersion : String := "1"

inductive SigError where
  | notGvSig
  | version
  | missing (parameter : String)
  | duplicate (parameter : String)
  | unknown (parameter : String)
  | malformed (parameter : String)
deriving DecidableEq

/-- A parameter of the header. -/
inductive Slot where
  | v
  | actor
  | token
  | vault
  | ts
  | nonce
  | sig
deriving DecidableEq

def Slot.name : Slot → String
  | v => "v"
  | actor => "actor"
  | token => "token"
  | vault => "vault"
  | ts => "ts"
  | nonce => "nonce"
  | sig => "sig"

def Slot.ofName : String → Option Slot
  | "v" => some v
  | "actor" => some actor
  | "token" => some token
  | "vault" => some vault
  | "ts" => some ts
  | "nonce" => some nonce
  | "sig" => some sig
  | _ => none

/-- What was read of each parameter. -/
abbrev Slots := Slot → Option (List Char)

namespace SigParams

/-- The parameters in the order they are written in. -/
def toHeaderValue (p : SigParams) : String :=
  let actor := match p.actor with
    | .owner => ["actor=owner"]
    | .token id => ["actor=token", "token=" ++ toHex id.raw.bytes]
  scheme ++ " " ++ ",".intercalate
    (["v=" ++ sigVersion] ++ actor ++
      ["vault=" ++ toHex p.vaultId.raw.bytes, "ts=" ++ toString p.ts, "nonce=" ++ base64 p.nonce.bytes,
        "sig=" ++ base64 p.sig.raw.bytes])

/-- Read one part between commas into its slot. -/
def fill (slots : Slots) (part : List Char) : Except SigError Slots :=
  match splitOnce '=' (trimBoth isWhitespace part) with
  | none => .error (.malformed "parameter")
  | some (k, val) =>
    match Slot.ofName (String.ofList k) with
    | none => .error (.unknown (String.ofList k))
    | some slot =>
      if (slots slot).isSome then .error (.duplicate (String.ofList k))
      else .ok (Function.update slots slot (some val))

def required (slots : Slots) (slot : Slot) : Except SigError (List Char) :=
  match slots slot with
  | none => .error (.missing slot.name)
  | some val => .ok val

def decoded {α : Type} (slot : Slot) : Option α → Except SigError α
  | none => .error (.malformed slot.name)
  | some value => .ok value

def parseActor (actor : List Char) (token : Option (List Char)) : Except SigError SigActor :=
  if actor = "owner".toList then
    match token with
    | none => .ok .owner
    | some _ => .error (.unknown "token")
  else if actor = "token".toList then
    match token with
    | some id => (decoded .token (fromHex 16 (String.ofList id))).map fun raw => .token ⟨raw⟩
    | none => .error (.missing "token")
  else .error (.malformed "actor")

def parse (header : String) : Except SigError SigParams :=
  match (stripPrefix scheme.toList header.toList).bind (stripPrefix [' ']) with
  | none => .error .notGvSig
  | some rest => do
    let slots ← (rest.splitOn ',').foldlM fill fun _ => none
    let v ← required slots .v
    if v ≠ sigVersion.toList then throw .version
    else
      let actor ← required slots .actor
      let actor ← parseActor actor (slots .token)
      let vault ← required slots .vault
      let vaultId ← decoded .vault (fromHex 16 (String.ofList vault))
      let ts ← required slots .ts
      let ts ← decoded .ts (parseI64 ts)
      let nonce ← required slots .nonce
      let nonce ← decoded .nonce (decodeFixed 16 nonce)
      let sig ← required slots .sig
      let sig ← decoded .sig (decodeFixed 64 sig)
      pure { actor := actor, vaultId := ⟨vaultId⟩, ts := ts, nonce := nonce, sig := ⟨sig⟩ }

end SigParams

/-! ## Base64url -/

theorem base64Value_digit : ∀ n < 64, base64Value (base64Digit n) = some n := by decide +kernel

theorem digit_of_base64Value {c : Char} {n : Nat} (read : base64Value c = some n) : n < 64 ∧ c = base64Digit n := by
  unfold base64Value at read
  obtain ⟨inside, stands, _⟩ := List.idxOf?_eq_some_iff.mp read
  refine ⟨inside, ?_⟩
  rw [base64Digit, List.getD_eq_getElem _ _ inside]
  exact stands.symm

/-- What is written in base64url is read back. -/
theorem fromBase64Chars_base64Chars (bytes : List UInt8) : fromBase64Chars (base64Chars bytes) = some bytes := by
  induction bytes using base64Chars.induct with
  | case1 => rfl
  | case2 a =>
    have aSmall := a.toNat_lt
    simp only [base64Chars, fromBase64Chars, base64Value_digit _ (show a.toNat / 4 < 64 by omega),
      base64Value_digit _ (show a.toNat % 4 * 16 < 64 by omega), Option.bind_eq_bind, Option.bind_some]
    rw [if_pos (by omega)]
    simp only [Option.some.injEq, List.cons.injEq, and_true]
    exact UInt8.toNat_inj.mp (by rw [UInt8.toNat_ofNat']; omega)
  | case3 a b =>
    have aSmall := a.toNat_lt
    have bSmall := b.toNat_lt
    simp only [base64Chars, fromBase64Chars, base64Value_digit _ (show a.toNat / 4 < 64 by omega),
      base64Value_digit _ (show a.toNat % 4 * 16 + b.toNat / 16 < 64 by omega),
      base64Value_digit _ (show b.toNat % 16 * 4 < 64 by omega), Option.bind_eq_bind, Option.bind_some]
    rw [if_pos (by omega)]
    simp only [Option.some.injEq, List.cons.injEq, and_true]
    constructor <;> refine UInt8.toNat_inj.mp ?_ <;> rw [UInt8.toNat_ofNat'] <;> omega
  | case4 a b c rest inductionHypothesis =>
    have aSmall := a.toNat_lt
    have bSmall := b.toNat_lt
    have cSmall := c.toNat_lt
    simp only [base64Chars, fromBase64Chars, base64Value_digit _ (show a.toNat / 4 < 64 by omega),
      base64Value_digit _ (show a.toNat % 4 * 16 + b.toNat / 16 < 64 by omega),
      base64Value_digit _ (show b.toNat % 16 * 4 + c.toNat / 64 < 64 by omega),
      base64Value_digit _ (show c.toNat % 64 < 64 by omega), inductionHypothesis, Option.bind_eq_bind, Option.bind_some,
      Option.pure_def, Option.some.injEq, List.cons.injEq, and_true]
    refine ⟨?_, ?_, ?_⟩ <;> refine UInt8.toNat_inj.mp ?_ <;> rw [UInt8.toNat_ofNat'] <;> omega

/-- What is read is what was written: there is one spelling of given bytes. -/
theorem base64Chars_of_read {text : List Char} {bytes : List UInt8} (read : fromBase64Chars text = some bytes) :
    text = base64Chars bytes := by
  induction text using fromBase64Chars.induct generalizing bytes with
  | case1 =>
    obtain rfl := Option.some.inj read
    rfl
  | case2 x => cases read
  | case3 x y =>
    simp only [fromBase64Chars, Option.bind_eq_bind, Option.bind_eq_some_iff] at read
    obtain ⟨a, first, b, second, read⟩ := read
    split at read
    · obtain rfl := Option.some.inj read
      obtain ⟨aSmall, rfl⟩ := digit_of_base64Value first
      obtain ⟨bSmall, rfl⟩ := digit_of_base64Value second
      simp only [base64Chars, UInt8.toNat_ofNat', List.cons.injEq, and_true]
      constructor <;> refine congrArg base64Digit ?_ <;> omega
    · cases read
  | case4 x y z =>
    simp only [fromBase64Chars, Option.bind_eq_bind, Option.bind_eq_some_iff] at read
    obtain ⟨a, first, b, second, c, third, read⟩ := read
    split at read
    · obtain rfl := Option.some.inj read
      obtain ⟨aSmall, rfl⟩ := digit_of_base64Value first
      obtain ⟨bSmall, rfl⟩ := digit_of_base64Value second
      obtain ⟨cSmall, rfl⟩ := digit_of_base64Value third
      simp only [base64Chars, UInt8.toNat_ofNat', List.cons.injEq, and_true]
      refine ⟨?_, ?_, ?_⟩ <;> refine congrArg base64Digit ?_ <;> omega
    · cases read
  | case5 x y z w rest inductionHypothesis =>
    simp only [fromBase64Chars, Option.bind_eq_bind, Option.bind_eq_some_iff, Option.pure_def, Option.some.injEq] at read
    obtain ⟨a, first, b, second, c, third, d, fourth, more, tail, rfl⟩ := read
    obtain ⟨aSmall, rfl⟩ := digit_of_base64Value first
    obtain ⟨bSmall, rfl⟩ := digit_of_base64Value second
    obtain ⟨cSmall, rfl⟩ := digit_of_base64Value third
    obtain ⟨dSmall, rfl⟩ := digit_of_base64Value fourth
    simp only [base64Chars, UInt8.toNat_ofNat', List.cons.injEq]
    refine ⟨?_, ?_, ?_, ?_, inductionHypothesis tail⟩ <;> refine congrArg base64Digit ?_ <;> omega

/-- A field of fixed width is read exactly from its one spelling. -/
theorem decodeFixed_eq_some_iff {n : Nat} {text : List Char} {field : FixedBytes n} :
    decodeFixed n text = some field ↔ text = base64Chars field.bytes := by
  unfold decodeFixed
  constructor
  · intro read
    simp only [Option.bind_eq_bind, Option.bind_eq_some_iff] at read
    obtain ⟨bytes, spelled, read⟩ := read
    split at read
    · obtain rfl := Option.some.inj read
      exact base64Chars_of_read spelled
    · cases read
  · rintro rfl
    simp [fromBase64Chars_base64Chars, field.size]

/-! ## Numbers -/

theorem decimal_repr (n : Nat) : decimal (Nat.repr n).toList = some n := by
  have digits : ∀ c ∈ Nat.toDigits 10 n, c.isDigit = true := fun c member =>
    Nat.isDigit_of_mem_toDigits (by decide) (by decide) member
  rw [Nat.toList_repr, decimal, if_pos ⟨Nat.toDigits_ne_nil, List.all_eq_true.mpr digits⟩, Nat.ofDigitChars_ten_toDigits]

/-- An integer of 64 bits is read back from its decimal text. -/
theorem parseI64_toString {ts : Int} (low : -2 ^ 63 ≤ ts) (high : ts < 2 ^ 63) :
    parseI64 (toString ts).toList = some ts := by
  change parseI64 (Int.repr ts).toList = some ts
  rw [Int.repr_eq_if]
  split
  · next positive =>
    obtain ⟨n, rfl⟩ := Int.eq_ofNat_of_zero_le positive
    have read := decimal_repr n
    rw [Int.toNat_natCast]
    -- A digit comes first, so no sign does.
    cases spelled : (Nat.repr n).toList with
    | nil =>
      rw [spelled] at read
      cases read
    | cons c rest =>
      have digit : c.isDigit = true := by
        have member : c ∈ Nat.toDigits 10 n := by
          rw [← Nat.toList_repr, spelled]
          exact List.mem_cons_self ..
        exact Nat.isDigit_of_mem_toDigits (by decide) (by decide) member
      have unsigned : parseI64 (c :: rest) =
          (decimal (c :: rest)).bind fun n => if n < 2 ^ 63 then some (n : Int) else none := by
        unfold parseI64
        split
        · next same => simp_all
        · next same => simp_all
        · rfl
      rw [unsigned, ← spelled, read, Option.bind_some, if_pos (by omega)]
  · next negative =>
    obtain ⟨n, rfl⟩ := Int.exists_eq_neg_ofNat (by omega : ts ≤ 0)
    have size : (- -(n : Int)).toNat = n := by omega
    rw [String.toList_append, size]
    change ((decimal (Nat.repr n).toList).bind fun n => if n ≤ 2 ^ 63 then some (-(n : Int)) else none) = _
    rw [decimal_repr, Option.bind_some, if_pos (by omega)]

/-! ## Parts -/

theorem splitOnce_eq_some_iff {sep : Char} {text before behind : List Char} :
    splitOnce sep text = some (before, behind) ↔ text = before ++ sep :: behind ∧ sep ∉ before := by
  induction text generalizing before with
  | nil => simp [splitOnce]
  | cons c rest inductionHypothesis =>
    rw [splitOnce]
    split
    · next same =>
      subst same
      simp only [Option.some.injEq, Prod.mk.injEq]
      constructor
      · rintro ⟨rfl, rfl⟩
        simp
      · rintro ⟨spelled, absent⟩
        cases before with
        | nil => simpa using spelled
        | cons d before => simp_all
    · next differs =>
      simp only [Option.map_eq_some_iff, Prod.mk.injEq, Prod.exists]
      constructor
      · rintro ⟨front, back, split, rfl, rfl⟩
        obtain ⟨rfl, absent⟩ := inductionHypothesis.mp split
        simpa [absent] using fun same => differs same.symm
      · rintro ⟨spelled, absent⟩
        cases before with
        | nil =>
          simp only [List.nil_append, List.cons.injEq] at spelled
          exact absurd spelled.1 differs
        | cons d front =>
          simp only [List.cons_append, List.cons.injEq] at spelled
          obtain ⟨rfl, rfl⟩ := spelled
          simp only [List.mem_cons, not_or] at absent
          exact ⟨front, behind, inductionHypothesis.mpr ⟨rfl, absent.2⟩, rfl, rfl⟩

theorem Slot.ofName_eq_some_iff {name : String} {slot : Slot} : ofName name = some slot ↔ name = slot.name := by
  constructor
  · intro known
    unfold ofName at known
    split at known <;> first | cases known; rfl | cases known
  · rintro rfl
    cases slot <;> rfl

theorem Slot.name_plain (slot : Slot) : '=' ∉ slot.name.toList := by cases slot <;> decide

/-! ## Fields -/

/-- A parameter with its value, as a part spells it. -/
abbrev Field := Slot × List Char

def Field.text (field : Field) : List Char := field.1.name.toList ++ '=' :: field.2

/-- Slots that take the values of fields, one after the other. -/
def filled (slots : Slots) (fields : List Field) : Slots :=
  fields.foldl (fun slots field => Function.update slots field.1 (some field.2)) slots

/-- A part is read into the free slot that it names. -/
theorem SigParams.fill_eq_ok_iff {slots after : Slots} {part : List Char} :
    fill slots part = .ok after ↔ ∃ field : Field, trimBoth isWhitespace part = field.text ∧ slots field.1 = none ∧
      after = Function.update slots field.1 (some field.2) := by
  constructor
  · intro ran
    unfold fill at ran
    split at ran
    · cases ran
    · next k val split =>
      obtain ⟨spelled, _⟩ := splitOnce_eq_some_iff.mp split
      cases known : Slot.ofName (String.ofList k) with
      | none =>
        rw [known] at ran
        cases ran
      | some slot =>
        have named : k = slot.name.toList := by
          rw [← Slot.ofName_eq_some_iff.mp known, String.toList_ofList]
        rw [known] at ran
        dsimp only at ran
        split at ran
        · cases ran
        · next free =>
          refine ⟨(slot, val), ?_, ?_, (Except.ok.inj ran).symm⟩
          · rw [spelled, named, Field.text]
          · simpa using free
  · rintro ⟨⟨slot, val⟩, spelled, free, rfl⟩
    have split : splitOnce '=' (trimBoth isWhitespace part) = some (slot.name.toList, val) :=
      splitOnce_eq_some_iff.mpr ⟨spelled, slot.name_plain⟩
    have known : Slot.ofName (String.ofList slot.name.toList) = some slot := by
      rw [String.ofList_toList, Slot.ofName_eq_some_iff]
    unfold fill
    rw [split]
    dsimp only
    rw [known]
    simp only [free, Option.isSome_none, Bool.false_eq_true, if_false]

/-- All parts are read when they spell fields of different parameters, each of a free slot.
The induction is on the parts, and every part but the first finds one slot fewer free. -/
theorem SigParams.foldlM_fill_eq_ok_iff {slots after : Slots} {parts : List (List Char)} :
    parts.foldlM fill slots = .ok after ↔ ∃ fields : List Field,
      parts.map (trimBoth isWhitespace) = fields.map Field.text ∧ (fields.map Prod.fst).Nodup ∧
      (∀ field ∈ fields, slots field.1 = none) ∧ after = filled slots fields := by
  induction parts generalizing slots with
  | nil =>
    constructor
    · intro read
      exact ⟨[], rfl, List.nodup_nil, by simp, (Except.ok.inj read).symm⟩
    · rintro ⟨fields, none, _, _, rfl⟩
      obtain rfl := List.map_eq_nil_iff.mp none.symm
      rfl
  | cons part parts inductionHypothesis =>
    rw [List.foldlM_cons]
    constructor
    · intro read
      obtain ⟨middle, first, read⟩ := except_bind_ok read
      obtain ⟨field, spelled, free, rfl⟩ := fill_eq_ok_iff.mp first
      obtain ⟨fields, others, distinct, frees, rfl⟩ := inductionHypothesis.mp read
      have apart : ∀ other ∈ fields, other.1 ≠ field.1 := by
        intro other member same
        have taken := frees other member
        rw [same, Function.update_self] at taken
        cases taken
      refine ⟨field :: fields, ?_, ?_, ?_, rfl⟩
      · rw [List.map_cons, List.map_cons, spelled, others]
      · rw [List.map_cons, List.nodup_cons]
        refine ⟨fun member => ?_, distinct⟩
        obtain ⟨other, member, same⟩ := List.mem_map.mp member
        exact apart other member same
      · simp only [List.forall_mem_cons]
        refine ⟨free, fun other member => ?_⟩
        have unfilled := frees other member
        rwa [Function.update_of_ne (apart other member)] at unfilled
    · rintro ⟨fields, spelled, distinct, frees, rfl⟩
      cases fields with
      | nil => cases spelled
      | cons field fields =>
        simp only [List.map_cons, List.cons.injEq] at spelled
        simp only [List.map_cons, List.nodup_cons] at distinct
        simp only [List.forall_mem_cons] at frees
        have first : fill slots part = .ok (Function.update slots field.1 (some field.2)) :=
          fill_eq_ok_iff.mpr ⟨field, spelled.1, frees.1, rfl⟩
        have rest : parts.foldlM fill (Function.update slots field.1 (some field.2)) =
            .ok (filled (Function.update slots field.1 (some field.2)) fields) := by
          refine inductionHypothesis.mpr ⟨fields, spelled.2, distinct.2, fun other member => ?_, rfl⟩
          have apart : other.1 ≠ field.1 := fun same => distinct.1 (same ▸ List.mem_map_of_mem member)
          rw [Function.update_of_ne apart]
          exact frees.2 other member
        rw [first]
        exact rest

/-- Slots that were free hold the values of the fields. -/
theorem filled_eq_some_iff {fields : List Field} (distinct : (fields.map Prod.fst).Nodup) {slots : Slots}
    {slot : Slot} {val : List Char} (frees : ∀ field ∈ fields, slots field.1 = none) :
    filled slots fields slot = some val ↔ (slot, val) ∈ fields ∨ slots slot = some val := by
  induction fields generalizing slots with
  | nil => simp [filled]
  | cons field fields inductionHypothesis =>
    simp only [List.map_cons, List.nodup_cons] at distinct
    simp only [List.forall_mem_cons] at frees
    have apart : ∀ other ∈ fields, other.1 ≠ field.1 := fun other member same =>
      distinct.1 (same ▸ List.mem_map_of_mem member)
    have later : ∀ other ∈ fields, Function.update slots field.1 (some field.2) other.1 = none := by
      intro other member
      rw [Function.update_of_ne (apart other member)]
      exact frees.2 other member
    change filled (Function.update slots field.1 (some field.2)) fields slot = some val ↔ _
    rw [inductionHypothesis distinct.2 later, List.mem_cons]
    by_cases same : slot = field.1
    · subst same
      have absent : (field.1, val) ∉ fields := fun member => apart _ member rfl
      simp only [Function.update_self, frees.1, absent, false_or, or_false, Option.some.injEq, reduceCtorEq]
      constructor
      · rintro rfl
        rfl
      · intro same
        exact (congrArg Prod.snd same).symm
    · have other : (slot, val) ≠ field := fun equal => same (congrArg Prod.fst equal)
      simp [Function.update_of_ne same, other]

theorem filled_free_eq_some_iff {fields : List Field} (distinct : (fields.map Prod.fst).Nodup) {slot : Slot}
    {val : List Char} : filled (fun _ => none) fields slot = some val ↔ (slot, val) ∈ fields := by
  rw [filled_eq_some_iff distinct fun _ _ => rfl]
  simp

/-! ## Readings -/

/-- The parameters a header of this actor has, each once. -/
def SigActor.slots : SigActor → List Slot
  | owner => [.v, .actor, .vault, .ts, .nonce, .sig]
  | token _ => [.v, .actor, .token, .vault, .ts, .nonce, .sig]

theorem SigActor.slots_nodup (actor : SigActor) : actor.slots.Nodup := by
  cases actor <;> simp only [slots] <;> decide

theorem SigActor.mem_slots_iff {actor : SigActor} {slot : Slot} :
    slot ∈ actor.slots ↔ (slot = .token → actor ≠ .owner) := by
  cases actor <;> cases slot <;> simp [slots]

def SigActor.kind : SigActor → String
  | owner => "owner"
  | token _ => "token"

/-- Fields spell the parameters of a signature: the actor's slots, each once and in any
order, with values that decode to these parameters. -/
structure Spells (fields : List Field) (p : SigParams) : Prop where
  once : (fields.map Prod.fst).Perm p.actor.slots
  v : (.v, sigVersion.toList) ∈ fields
  actor : (.actor, p.actor.kind.toList) ∈ fields
  token : ∀ id, p.actor = .token id → ∃ text, (.token, text) ∈ fields ∧ fromHex 16 (String.ofList text) = some id.raw
  vault : ∃ text, (.vault, text) ∈ fields ∧ fromHex 16 (String.ofList text) = some p.vaultId.raw
  ts : ∃ text, (.ts, text) ∈ fields ∧ parseI64 text = some p.ts
  nonce : (.nonce, base64Chars p.nonce.bytes) ∈ fields
  sig : (.sig, base64Chars p.sig.raw.bytes) ∈ fields

/-- A header has the scheme, and its parts between commas are, without the white space
around them, fields that spell these parameters. -/
def Reads (header : String) (p : SigParams) : Prop :=
  ∃ rest fields, header.toList = scheme.toList ++ ' ' :: rest ∧
    (rest.splitOn ',').map (trimBoth isWhitespace) = fields.map Field.text ∧ Spells fields p

namespace SigParams

theorem schemed_iff {header rest : List Char} :
    (stripPrefix scheme.toList header).bind (stripPrefix [' ']) = some rest ↔ header = scheme.toList ++ ' ' :: rest := by
  simp only [Option.bind_eq_some_iff, stripPrefix_eq_some_iff]
  constructor
  · rintro ⟨behind, rfl, rfl⟩
    rfl
  · rintro rfl
    exact ⟨_, rfl, rfl⟩

theorem required_eq_ok_iff {slots : Slots} {slot : Slot} {val : List Char} :
    required slots slot = .ok val ↔ slots slot = some val := by
  unfold required
  cases slots slot <;> simp

theorem decoded_eq_ok_iff {α : Type} {slot : Slot} {read : Option α} {value : α} :
    decoded slot read = .ok value ↔ read = some value := by
  cases read <;> simp [decoded]

theorem parseActor_eq_ok_iff {text : List Char} {token : Option (List Char)} {actor : SigActor} :
    parseActor text token = .ok actor ↔ text = actor.kind.toList ∧ (actor = .owner → token = none) ∧
      ∀ id, actor = .token id → ∃ val, token = some val ∧ fromHex 16 (String.ofList val) = some id.raw := by
  have apart : "token".toList ≠ "owner".toList := by decide
  unfold parseActor
  cases actor with
  | owner =>
    by_cases owner : text = "owner".toList
    · subst owner
      cases token <;> simp [SigActor.kind]
    · by_cases named : text = "token".toList
      · subst named
        cases token with
        | none => simp [SigActor.kind]
        | some val => cases read : fromHex 16 (String.ofList val) <;> simp [SigActor.kind, decoded, read, Except.map]
      · rw [if_neg owner, if_neg named]
        simpa [SigActor.kind] using fun same => absurd same owner
  | token id =>
    by_cases named : text = "token".toList
    · subst named
      rw [if_neg apart, if_pos rfl]
      cases token with
      | none => simp
      | some val =>
        obtain ⟨raw⟩ := id
        cases read : fromHex 16 (String.ofList val) <;> simp [SigActor.kind, decoded, read, Except.map]
    · rw [if_neg named]
      cases token <;> by_cases owner : text = "owner".toList <;> simp_all [SigActor.kind]

/-- The actor that is read from the fields of a header. -/
theorem parseActor_filled_iff {fields : List Field} (distinct : (fields.map Prod.fst).Nodup) {text : List Char}
    {actor : SigActor} :
    parseActor text (filled (fun _ => none) fields .token) = .ok actor ↔
      text = actor.kind.toList ∧ (actor = .owner → .token ∉ fields.map Prod.fst) ∧
        ∀ id, actor = .token id → ∃ val, (.token, val) ∈ fields ∧ fromHex 16 (String.ofList val) = some id.raw := by
  have free : filled (fun _ => none) fields .token = none ↔ .token ∉ fields.map Prod.fst := by
    rw [Option.eq_none_iff_forall_ne_some]
    constructor
    · intro none member
      obtain ⟨⟨_, val⟩, member, rfl⟩ := List.mem_map.mp member
      exact none val ((filled_free_eq_some_iff distinct).mpr member)
    · intro missing val held
      exact missing (List.mem_map_of_mem ((filled_free_eq_some_iff distinct).mp held))
  rw [parseActor_eq_ok_iff, free]
  simp only [filled_free_eq_some_iff distinct]

/-- Fields with every slot but the token's, and with it for a token only, are those of
the actor. -/
theorem once_of_stands {fields : List Field} (distinct : (fields.map Prod.fst).Nodup) {actor : SigActor}
    (stands : ∀ slot, slot ≠ .token → slot ∈ fields.map Prod.fst)
    (token : .token ∈ fields.map Prod.fst ↔ actor ≠ .owner) : (fields.map Prod.fst).Perm actor.slots := by
  refine (List.perm_ext_iff_of_nodup distinct actor.slots_nodup).mpr fun slot => ?_
  rw [SigActor.mem_slots_iff]
  by_cases named : slot = .token
  · subst named
    exact token.trans ⟨fun other _ => other, fun other => other rfl⟩
  · exact iff_of_true (stands slot named) fun same => absurd same named

theorem reads_of_parse {header : String} {p : SigParams} (parsed : parse header = .ok p) : Reads header p := by
  unfold parse at parsed
  split at parsed
  · cases parsed
  · next rest schemed =>
    obtain ⟨slots, read, parsed⟩ := except_bind_ok parsed
    obtain ⟨fields, spelled, distinct, _, rfl⟩ := foldlM_fill_eq_ok_iff.mp read
    obtain ⟨v, present, parsed⟩ := except_bind_ok parsed
    split at parsed
    · cases parsed
    · next same =>
      obtain ⟨text, actorText, parsed⟩ := except_bind_ok parsed
      obtain ⟨actor, actorRead, parsed⟩ := except_bind_ok parsed
      obtain ⟨vault, vaultText, parsed⟩ := except_bind_ok parsed
      obtain ⟨vaultId, vaultRead, parsed⟩ := except_bind_ok parsed
      obtain ⟨tsVal, tsText, parsed⟩ := except_bind_ok parsed
      obtain ⟨ts, tsRead, parsed⟩ := except_bind_ok parsed
      obtain ⟨nonceVal, nonceText, parsed⟩ := except_bind_ok parsed
      obtain ⟨nonce, nonceRead, parsed⟩ := except_bind_ok parsed
      obtain ⟨sigVal, sigText, parsed⟩ := except_bind_ok parsed
      obtain ⟨sig, sigRead, parsed⟩ := except_bind_ok parsed
      obtain rfl := Except.ok.inj parsed
      rw [required_eq_ok_iff, filled_free_eq_some_iff distinct] at present actorText vaultText tsText nonceText sigText
      rw [decoded_eq_ok_iff] at vaultRead tsRead nonceRead sigRead
      rw [decodeFixed_eq_some_iff] at nonceRead sigRead
      obtain ⟨rfl, ownerless, tokenRead⟩ := (parseActor_filled_iff distinct).mp actorRead
      obtain rfl := not_not.mp same
      subst nonceRead sigRead
      refine ⟨rest, fields, schemed_iff.mp schemed, spelled, ?_, present, actorText, tokenRead, ⟨vault, vaultText, vaultRead⟩,
        ⟨tsVal, tsText, tsRead⟩, nonceText, sigText⟩
      apply once_of_stands distinct
      · intro slot other
        cases slot with
        | v => exact List.mem_map_of_mem present
        | actor => exact List.mem_map_of_mem actorText
        | token => exact absurd rfl other
        | vault => exact List.mem_map_of_mem vaultText
        | ts => exact List.mem_map_of_mem tsText
        | nonce => exact List.mem_map_of_mem nonceText
        | sig => exact List.mem_map_of_mem sigText
      · constructor
        · exact fun member owner => ownerless owner member
        · intro other
          cases actor with
          | owner => exact absurd rfl other
          | token id =>
            obtain ⟨val, member, _⟩ := tokenRead id rfl
            exact List.mem_map_of_mem member

theorem parse_of_reads {header : String} {p : SigParams} (reads : Reads header p) : parse header = .ok p := by
  obtain ⟨rest, fields, schemed, spelled, spells⟩ := reads
  have distinct : (fields.map Prod.fst).Nodup := spells.once.nodup_iff.mpr p.actor.slots_nodup
  have read : (rest.splitOn ',').foldlM fill (fun _ => none) = .ok (filled (fun _ => none) fields) :=
    foldlM_fill_eq_ok_iff.mpr ⟨fields, spelled, distinct, fun _ _ => rfl, rfl⟩
  have present {slot : Slot} {val : List Char} (member : (slot, val) ∈ fields) :
      required (filled (fun _ => none) fields) slot = .ok val :=
    required_eq_ok_iff.mpr ((filled_free_eq_some_iff distinct).mpr member)
  have ownerless (owner : p.actor = .owner) : .token ∉ fields.map Prod.fst := by
    rw [spells.once.mem_iff, owner]
    decide
  have actor : parseActor p.actor.kind.toList (filled (fun _ => none) fields .token) = .ok p.actor :=
    (parseActor_filled_iff distinct).mpr ⟨rfl, ownerless, spells.token⟩
  obtain ⟨vault, vaultHeld, vaultRead⟩ := spells.vault
  obtain ⟨ts, tsHeld, tsRead⟩ := spells.ts
  have nonceRead : decodeFixed 16 (base64Chars p.nonce.bytes) = some p.nonce := decodeFixed_eq_some_iff.mpr rfl
  have sigRead : decodeFixed 64 (base64Chars p.sig.raw.bytes) = some p.sig.raw := decodeFixed_eq_some_iff.mpr rfl
  unfold parse
  rw [schemed_iff.mpr schemed]
  simp only [read, present spells.v, present spells.actor, actor, present vaultHeld, vaultRead, present tsHeld, tsRead,
    present spells.nonce, nonceRead, present spells.sig, sigRead, decoded, bind, Except.bind, pure, Except.pure,
    ne_eq, not_true_eq_false, if_false]

/-- The parser accepts a header exactly when it reads as the parameters returned. -/
theorem parse_eq_ok_iff {header : String} {p : SigParams} : parse header = .ok p ↔ Reads header p :=
  ⟨reads_of_parse, parse_of_reads⟩

/-! ## Writing -/

/-- The fields of a header as it is written. -/
def fields (p : SigParams) : List Field :=
  let actor : List Field := match p.actor with
    | .owner => [(.actor, "owner".toList)]
    | .token id => [(.actor, "token".toList), (.token, (toHex id.raw.bytes).toList)]
  [(.v, sigVersion.toList)] ++ actor ++
    [(.vault, (toHex p.vaultId.raw.bytes).toList), (.ts, (toString p.ts).toList), (.nonce, base64Chars p.nonce.bytes),
      (.sig, base64Chars p.sig.raw.bytes)]

theorem toHeaderValue_toList (p : SigParams) :
    p.toHeaderValue.toList = scheme.toList ++ ' ' :: [','].intercalate (p.fields.map Field.text) := by
  cases actor : p.actor <;> simp [toHeaderValue, fields, actor, Field.text, Slot.name, base64]

/-- A character that neither ends a part nor is trimmed from it. -/
def Plain (c : Char) : Prop := c ≠ ',' ∧ isWhitespace c = false

instance (c : Char) : Decidable (Plain c) := inferInstanceAs (Decidable (_ ∧ _))

theorem plain_of_isDigit {c : Char} (digit : c.isDigit = true) : Plain c := by
  obtain ⟨low, high⟩ : 48 ≤ c.toNat ∧ c.toNat ≤ 57 := by
    simpa [Char.isDigit, UInt32.le_iff_toNat_le] using digit
  constructor
  · rintro rfl
    revert low
    decide
  · unfold isWhitespace
    generalize c.toNat = n at low high
    interval_cases n <;> rfl

theorem toHex_plain (bytes : List UInt8) : ∀ c ∈ (toHex bytes).toList, Plain c :=
  toHex_forall (by decide +kernel) bytes

theorem base64Chars_plain (bytes : List UInt8) : ∀ c ∈ base64Chars bytes, Plain c :=
  base64Chars_forall (by decide +kernel) bytes

theorem toString_plain (ts : Int) : ∀ c ∈ (toString ts).toList, Plain c := by
  have digits (n : Nat) : ∀ c ∈ (Nat.repr n).toList, Plain c := by
    intro c member
    rw [Nat.toList_repr] at member
    exact plain_of_isDigit (Nat.isDigit_of_mem_toDigits (by decide) (by decide) member)
  change ∀ c ∈ (Int.repr ts).toList, Plain c
  rw [Int.repr_eq_if]
  split
  · exact digits _
  · rw [String.toList_append, List.forall_mem_append]
    exact ⟨by simp [Plain, isWhitespace], digits _⟩

theorem fields_plain (p : SigParams) : ∀ field ∈ p.fields, ∀ c ∈ field.text, Plain c := by
  have written (slot : Slot) {val : List Char} (plain : ∀ c ∈ val, Plain c) : ∀ c ∈ Field.text (slot, val), Plain c := by
    rw [Field.text, List.forall_mem_append, List.forall_mem_cons]
    refine ⟨?_, by simp [Plain, isWhitespace], plain⟩
    cases slot <;> simp [Slot.name, Plain, isWhitespace]
  have v : ∀ c ∈ Field.text (.v, sigVersion.toList), Plain c := written _ (by simp [sigVersion, Plain, isWhitespace])
  have owner : ∀ c ∈ Field.text (.actor, "owner".toList), Plain c := written _ (by simp [Plain, isWhitespace])
  have token : ∀ c ∈ Field.text (.actor, "token".toList), Plain c := written _ (by simp [Plain, isWhitespace])
  have vault := written .vault (toHex_plain p.vaultId.raw.bytes)
  have ts := written .ts (toString_plain p.ts)
  have nonce := written .nonce (base64Chars_plain p.nonce.bytes)
  have sig := written .sig (base64Chars_plain p.sig.raw.bytes)
  have none : ∀ field ∈ ([] : List Field), ∀ c ∈ field.text, Plain c := List.forall_mem_nil _
  unfold fields
  cases p.actor with
  | owner =>
    exact List.forall_mem_cons.mpr ⟨v, List.forall_mem_cons.mpr ⟨owner, List.forall_mem_cons.mpr ⟨vault,
      List.forall_mem_cons.mpr ⟨ts, List.forall_mem_cons.mpr ⟨nonce, List.forall_mem_cons.mpr ⟨sig, none⟩⟩⟩⟩⟩⟩
  | token id =>
    have named := written .token (toHex_plain id.raw.bytes)
    exact List.forall_mem_cons.mpr ⟨v, List.forall_mem_cons.mpr ⟨token, List.forall_mem_cons.mpr ⟨named,
      List.forall_mem_cons.mpr ⟨vault, List.forall_mem_cons.mpr ⟨ts, List.forall_mem_cons.mpr ⟨nonce,
        List.forall_mem_cons.mpr ⟨sig, none⟩⟩⟩⟩⟩⟩⟩

theorem fromHex_text {n : Nat} (raw : FixedBytes n) :
    fromHex n (String.ofList (toHex raw.bytes).toList) = some raw := by
  rw [String.ofList_toList, fromHex_toHex]

/-- The fields of a header as it is written spell its parameters. -/
theorem fields_spell {p : SigParams} (low : -2 ^ 63 ≤ p.ts) (high : p.ts < 2 ^ 63) : Spells p.fields p where
  once := by cases actor : p.actor <;> simp [fields, actor, SigActor.slots]
  v := by simp [fields]
  actor := by cases actor : p.actor <;> simp [fields, actor, SigActor.kind]
  token := by
    intro id token
    exact ⟨_, by simp [fields, token], fromHex_text id.raw⟩
  vault := ⟨_, by simp [fields], fromHex_text p.vaultId.raw⟩
  ts := ⟨_, by simp [fields], parseI64_toString low high⟩
  nonce := by simp [fields]
  sig := by simp [fields]

theorem parse_toHeaderValue {p : SigParams} (low : -2 ^ 63 ≤ p.ts) (high : p.ts < 2 ^ 63) :
    parse p.toHeaderValue = .ok p := by
  have plain := p.fields_plain
  rw [parse_eq_ok_iff]
  refine ⟨_, p.fields, p.toHeaderValue_toList, ?_, fields_spell low high⟩
  rw [List.splitOn_intercalate ',', List.map_map, List.map_congr_left]
  · intro field member
    have blackened : ∀ c ∈ field.text, isWhitespace c = false := fun c stands => (plain field member c stands).2
    exact Formats.trimBoth_eq_self (fun c first => blackened c (List.mem_of_mem_head? first))
      (fun c last => blackened c (List.mem_of_getLast? last))
  · intro text member comma
    obtain ⟨field, among, rfl⟩ := List.mem_map.mp member
    exact (plain field among ',' comma).1 rfl
  · unfold fields
    simp

end SigParams

/-- A header is read back as the parameters it was written from. A header is accepted
exactly when it reads as the parameters returned: the scheme, the actor's parameters each
once, and values that decode to them. Every other header is an error. -/
theorem header_exact :
    (∀ p : SigParams, -2 ^ 63 ≤ p.ts → p.ts < 2 ^ 63 → SigParams.parse p.toHeaderValue = .ok p) ∧
    (∀ header p, SigParams.parse header = .ok p ↔ Reads header p) ∧
    ∀ header, (¬ ∃ p, Reads header p) → ∃ failure, SigParams.parse header = .error failure := by
  refine ⟨fun p low high => SigParams.parse_toHeaderValue low high, fun _ _ => SigParams.parse_eq_ok_iff, ?_⟩
  intro header unread
  cases parsed : SigParams.parse header with
  | error failure => exact ⟨failure, rfl⟩
  | ok p => exact absurd ⟨p, SigParams.parse_eq_ok_iff.mp parsed⟩ unread

theorem header_exact_of_token :
    let p : SigParams :=
      { actor := .token ⟨.fill 16 0x44⟩, vaultId := ⟨.fill 16 0x11⟩, ts := -1, nonce := .fill 16 0x22,
        sig := ⟨.fill 64 0x33⟩ }
    SigParams.parse p.toHeaderValue = .ok p := by
  intro p
  exact header_exact.1 p (by decide) (by decide)

end GalataVault.Proto
