import Mathlib
import GalataVault.Proto.Decoding
import GalataVault.Proto.Sig

/-!
# What a request signature binds

A request's signing input is ten lines of text. Six of them are spelled so that no line
feed can stand in them: the label, the actor, the body's digest, the vault, the time and
the nonce. Where none stands in the other four either, the lines can be read back, and
each of them determines what it spells: the method up to the case of its letters, and a
precondition up to whether an empty one was there at all.
-/

namespace GalataVault.Proto

/-! ## Texts and their bytes -/

theorem utf8_injective {left right : String} (same : utf8 left = utf8 right) : left = right := by
  have read : String.fromUTF8? ⟨(utf8 left).toArray⟩ = some right := by rw [same, fromUTF8?_utf8]
  rw [fromUTF8?_utf8] at read
  exact Option.some.inj read

theorem utf8_eq_data (text : String) : utf8 text = text.toByteArray.data.toList := by
  simp [utf8, ByteArray.toList, toList_loop]

theorem utf8_append (left right : String) : utf8 (left ++ right) = utf8 left ++ utf8 right := by
  simp [utf8_eq_data]

/-- No line feed stands in the text. -/
def LineFree (text : String) : Prop := '\n' ∉ text.toList

instance (text : String) : Decidable (LineFree text) := inferInstanceAs (Decidable (_ ∉ _))

/-! ## Digits -/

theorem hexDigit_injective : ∀ n < 16, ∀ m < 16, hexDigit n = hexDigit m → n = m := by decide

theorem base64Digit_injective : ∀ n < 64, ∀ m < 64, base64Digit n = base64Digit m → n = m := by decide +kernel

/-- The two digits of a byte determine it. -/
theorem hexDigits_injective {a b : UInt8} (high : hexDigit (a.toNat / 16) = hexDigit (b.toNat / 16))
    (low : hexDigit (a.toNat % 16) = hexDigit (b.toNat % 16)) : a = b := by
  have aSmall := a.toNat_lt
  have bSmall := b.toNat_lt
  have highs := hexDigit_injective _ (by omega) _ (by omega) high
  have lows := hexDigit_injective _ (by omega) _ (by omega) low
  exact UInt8.toNat_inj.mp (by omega)

theorem toHex_injective {left right : List UInt8} (same : toHex left = toHex right) : left = right := by
  have chars := String.ofList_injective same
  clear same
  induction left generalizing right with
  | nil =>
    cases right with
    | nil => rfl
    | cons b rest => simp at chars
  | cons a left inductionHypothesis =>
    cases right with
    | nil => simp at chars
    | cons b right =>
      simp only [List.flatMap_cons, List.cons_append, List.nil_append, List.cons.injEq] at chars
      obtain ⟨high, low, rest⟩ := chars
      rw [hexDigits_injective high low, inductionHypothesis rest]

/-- What holds of the hexadecimal digits holds of every character they spell. -/
theorem toHex_forall {P : Char → Prop} (digits : ∀ n < 16, P (hexDigit n)) (bytes : List UInt8) :
    ∀ c ∈ (toHex bytes).toList, P c := by
  intro c member
  rw [toHex, String.toList_ofList, List.mem_flatMap] at member
  obtain ⟨b, _, digit⟩ := member
  have small := b.toNat_lt
  simp only [List.mem_cons, List.not_mem_nil, or_false] at digit
  obtain rfl | rfl := digit
  · exact digits _ (by omega)
  · exact digits _ (by omega)

theorem toHex_lineFree (bytes : List UInt8) : LineFree (toHex bytes) := fun stands =>
  toHex_forall (P := (· ≠ '\n')) (by decide) bytes _ stands rfl

theorem hexValue_hexDigit : ∀ n < 16, hexValue (hexDigit n) = some n := by decide

/-- Hexadecimal digits are read as the bytes they were written from. -/
theorem fromHexPairs_flatMap (bytes : List UInt8) :
    fromHexPairs (bytes.flatMap fun b => [hexDigit (b.toNat / 16), hexDigit (b.toNat % 16)]) = some bytes := by
  induction bytes with
  | nil => rfl
  | cons b bytes inductionHypothesis =>
    have small := b.toNat_lt
    have byte : UInt8.ofNat (b.toNat / 16 * 16 + b.toNat % 16) = b := by
      rw [Nat.div_add_mod']
      exact UInt8.ofNat_toNat
    simp only [List.flatMap_cons, List.cons_append, List.nil_append, fromHexPairs]
    rw [hexValue_hexDigit _ (by omega), hexValue_hexDigit _ (by omega), inductionHypothesis]
    exact congrArg (fun first => some (first :: bytes)) byte

theorem fromHex_toHex {n : Nat} (raw : FixedBytes n) : fromHex n (toHex raw.bytes) = some raw := by
  unfold fromHex toHex
  rw [String.toList_ofList, fromHexPairs_flatMap]
  simp [raw.size]

/-- Bytes of equal number that are spelled alike are the same bytes. -/
theorem base64Chars_injective {left right : List UInt8} (size : left.length = right.length)
    (same : base64Chars left = base64Chars right) : left = right := by
  induction left using base64Chars.induct generalizing right with
  | case1 => exact (List.length_eq_zero_iff.mp size.symm).symm
  | case2 a =>
    obtain ⟨b, rfl⟩ := List.length_eq_one_iff.mp size.symm
    have aSmall := a.toNat_lt
    have bSmall := b.toNat_lt
    simp only [base64Chars, List.cons.injEq, and_true] at same
    have first := base64Digit_injective _ (by omega) _ (by omega) same.1
    have second := base64Digit_injective _ (by omega) _ (by omega) same.2
    rw [UInt8.toNat_inj.mp (show a.toNat = b.toNat by omega)]
  | case3 a b =>
    obtain ⟨c, d, rfl⟩ := List.length_eq_two.mp size.symm
    have aSmall := a.toNat_lt
    have bSmall := b.toNat_lt
    have cSmall := c.toNat_lt
    have dSmall := d.toNat_lt
    simp only [base64Chars, List.cons.injEq, and_true] at same
    have first := base64Digit_injective _ (by omega) _ (by omega) same.1
    have second := base64Digit_injective _ (by omega) _ (by omega) same.2.1
    have third := base64Digit_injective _ (by omega) _ (by omega) same.2.2
    rw [UInt8.toNat_inj.mp (show a.toNat = c.toNat by omega), UInt8.toNat_inj.mp (show b.toNat = d.toNat by omega)]
  | case4 a b c rest inductionHypothesis =>
    obtain ⟨d, e, f, more, rfl⟩ : ∃ d e f more, right = d :: e :: f :: more := by
      match right, size with
      | [], size => simp at size
      | [_], size => simp at size
      | [_, _], size => simp at size
      | d :: e :: f :: more, _ => exact ⟨d, e, f, more, rfl⟩
    have aSmall := a.toNat_lt
    have bSmall := b.toNat_lt
    have cSmall := c.toNat_lt
    have dSmall := d.toNat_lt
    have eSmall := e.toNat_lt
    have fSmall := f.toNat_lt
    simp only [base64Chars, List.cons.injEq] at same
    obtain ⟨first, second, third, fourth, tail⟩ := same
    have firsts := base64Digit_injective _ (by omega) _ (by omega) first
    have seconds := base64Digit_injective _ (by omega) _ (by omega) second
    have thirds := base64Digit_injective _ (by omega) _ (by omega) third
    have fourths := base64Digit_injective _ (by omega) _ (by omega) fourth
    rw [UInt8.toNat_inj.mp (show a.toNat = d.toNat by omega), UInt8.toNat_inj.mp (show b.toNat = e.toNat by omega),
      UInt8.toNat_inj.mp (show c.toNat = f.toNat by omega), inductionHypothesis (by simpa using size) tail]

/-- What holds of the digits of base64url holds of every character they spell. -/
theorem base64Chars_forall {P : Char → Prop} (digits : ∀ n < 64, P (base64Digit n)) (bytes : List UInt8) :
    ∀ c ∈ base64Chars bytes, P c := by
  induction bytes using base64Chars.induct with
  | case1 => simp [base64Chars]
  | case2 a =>
    have aSmall := a.toNat_lt
    simp only [base64Chars, List.forall_mem_cons, List.not_mem_nil, false_implies, implies_true, and_true]
    exact ⟨digits _ (by omega), digits _ (by omega)⟩
  | case3 a b =>
    have aSmall := a.toNat_lt
    have bSmall := b.toNat_lt
    simp only [base64Chars, List.forall_mem_cons, List.not_mem_nil, false_implies, implies_true, and_true]
    exact ⟨digits _ (by omega), digits _ (by omega), digits _ (by omega)⟩
  | case4 a b c rest inductionHypothesis =>
    have aSmall := a.toNat_lt
    have bSmall := b.toNat_lt
    have cSmall := c.toNat_lt
    simp only [base64Chars, List.forall_mem_cons]
    exact ⟨digits _ (by omega), digits _ (by omega), digits _ (by omega), digits _ (by omega), inductionHypothesis⟩

theorem base64_lineFree (bytes : List UInt8) : LineFree (base64 bytes) := by
  unfold LineFree base64
  rw [String.toList_ofList]
  exact fun stands => base64Chars_forall (P := (· ≠ '\n')) (by decide +kernel) bytes _ stands rfl

/-! ## The lines -/

theorem repr_lineFree (n : Nat) : LineFree (Nat.repr n) := by
  unfold LineFree
  rw [Nat.toList_repr]
  intro stands
  exact absurd (Nat.isDigit_of_mem_toDigits (by decide) (by decide) stands) (by decide)

theorem toString_lineFree (i : Int) : LineFree (toString i) := by
  change LineFree (Int.repr i)
  rw [Int.repr_eq_if]
  split
  · exact repr_lineFree _
  · unfold LineFree
    rw [String.toList_append, List.mem_append, not_or]
    exact ⟨by decide, repr_lineFree _⟩

theorem SigActor.text_lineFree (actor : SigActor) : LineFree actor.text := by
  cases actor with
  | owner => decide
  | token id =>
    unfold SigActor.text LineFree
    rw [String.toList_append, List.mem_append, not_or]
    exact ⟨by decide, toHex_lineFree _⟩

theorem SigActor.text_injective {a b : SigActor} (same : a.text = b.text) : a = b := by
  cases a with
  | owner =>
    cases b with
    | owner => rfl
    | token id =>
      have first := congrArg (·.toList.head?) same
      simp [SigActor.text] at first
  | token id =>
    cases b with
    | owner =>
      have first := congrArg (·.toList.head?) same
      simp [SigActor.text] at first
    | token id' =>
      have digits : toHex id.raw.bytes = toHex id'.raw.bytes := String.append_right_inj _ |>.mp same
      exact congrArg SigActor.token (TokenId.bytes_injective (toHex_injective digits))

theorem toUpper_ne_lineFeed {c : Char} (letter : 'a' ≤ c ∧ c ≤ 'z') : c.toUpper ≠ '\n' := by
  have letters : ∀ n < 123, 97 ≤ n → (Char.ofNat n).toUpper ≠ '\n' := by decide +kernel
  have low : 97 ≤ c.toNat := letter.1
  have high : c.toNat ≤ 122 := letter.2
  have upper := letters c.toNat (by omega) low
  rwa [Char.ofNat_toNat] at upper

theorem asciiUppercase_lineFree {text : String} (free : LineFree text) : LineFree (asciiUppercase text) := by
  unfold LineFree asciiUppercase at *
  rw [String.toList_map, List.mem_map]
  rintro ⟨c, stands, upper⟩
  split at upper
  · next letter => exact toUpper_ne_lineFeed letter upper
  · rw [upper] at stands
    exact free stands

/-- No line feed stands in what the request brings as text. -/
structure SignedRequest.LineFree (request : SignedRequest) : Prop where
  method : Proto.LineFree request.method
  pathAndQuery : Proto.LineFree request.pathAndQuery
  ifMatch : ∀ value ∈ request.ifMatch, Proto.LineFree value
  ifNoneMatch : ∀ value ∈ request.ifNoneMatch, Proto.LineFree value

theorem getD_lineFree {value : Option String} (free : ∀ text ∈ value, LineFree text) : LineFree (value.getD "") := by
  cases value with
  | none => decide
  | some text => exact free text rfl

/-- Lines without line feeds are read back from the text they make up. -/
theorem intercalate_injective {left right : List String} (nonempty : left ≠ []) (nonempty' : right ≠ [])
    (free : ∀ line ∈ left, LineFree line) (free' : ∀ line ∈ right, LineFree line)
    (same : "\n".intercalate left = "\n".intercalate right) : left = right := by
  have split : ∀ lines : List String, lines ≠ [] → (∀ line ∈ lines, LineFree line) →
      ("\n".intercalate lines).toList.splitOn '\n' = lines.map String.toList := by
    intro lines some plain
    rw [String.toList_intercalate]
    refine List.splitOn_intercalate '\n' (fun line among => ?_) (by simpa using some)
    obtain ⟨text, member, rfl⟩ := List.mem_map.mp among
    exact plain text member
  have chars : left.map String.toList = right.map String.toList := by
    rw [← split left nonempty free, same, split right nonempty' free']
  exact List.map_injective_iff.mpr (fun _ _ => String.toList_inj.mp) chars

section

variable [Digests]

/-- The lines of a signing input. -/
def SigParams.lines (p : SigParams) (request : SignedRequest) : List String :=
  [Label.sig, p.actor.text, asciiUppercase request.method, request.pathAndQuery,
    toHex (Digests.sha256 request.body).raw.bytes, toHex p.vaultId.raw.bytes, toString p.ts,
    base64 p.nonce.bytes, request.ifMatch.getD "", request.ifNoneMatch.getD ""]

theorem SigParams.lines_lineFree (p : SigParams) {request : SignedRequest} (free : request.LineFree) :
    ∀ line ∈ p.lines request, LineFree line := by
  simp only [lines, List.forall_mem_cons]
  exact ⟨by decide, p.actor.text_lineFree, asciiUppercase_lineFree free.method, free.pathAndQuery, toHex_lineFree _,
    toHex_lineFree _, toString_lineFree _, base64_lineFree _, getD_lineFree free.ifMatch, getD_lineFree free.ifNoneMatch,
    fun _ none => nomatch none⟩

/-- Two requests, with their signatures' parameters, agree in all that a signature
covers. -/
structure SameRequest (p q : SigParams) (a b : SignedRequest) : Prop where
  actor : p.actor = q.actor
  /-- Up to the case of ASCII letters. -/
  method : asciiUppercase a.method = asciiUppercase b.method
  pathAndQuery : a.pathAndQuery = b.pathAndQuery
  body : Digests.sha256 a.body = Digests.sha256 b.body
  vaultId : p.vaultId = q.vaultId
  ts : p.ts = q.ts
  nonce : p.nonce = q.nonce
  /-- Up to an absent value and an empty one. -/
  ifMatch : a.ifMatch.getD "" = b.ifMatch.getD ""
  ifNoneMatch : a.ifNoneMatch.getD "" = b.ifNoneMatch.getD ""

/-- Equal signing inputs of requests without line feeds cover the same request. -/
theorem sameRequest_of_signingInput {p q : SigParams} {a b : SignedRequest} (free : a.LineFree) (free' : b.LineFree)
    (same : p.signingInput a = q.signingInput b) : SameRequest p q a b := by
  have text : "\n".intercalate (p.lines a) = "\n".intercalate (q.lines b) := utf8_injective same
  have lines : p.lines a = q.lines b :=
    intercalate_injective (by simp [SigParams.lines]) (by simp [SigParams.lines]) (p.lines_lineFree free)
      (q.lines_lineFree free') text
  simp only [SigParams.lines, List.cons.injEq, and_true, true_and] at lines
  obtain ⟨actor, method, path, body, vault, ts, nonce, ifMatch, ifNoneMatch⟩ := lines
  exact
    { actor := SigActor.text_injective actor
      method := method
      pathAndQuery := path
      body := Hash32.bytes_injective (toHex_injective body)
      vaultId := congrArg VaultId.mk (FixedBytes.bytes_injective (toHex_injective vault))
      ts := Int.repr_injective ts
      nonce := FixedBytes.bytes_injective
        (base64Chars_injective (p.nonce.size.trans q.nonce.size.symm) (String.ofList_injective nonce))
      ifMatch := ifMatch
      ifNoneMatch := ifNoneMatch }

end

end GalataVault.Proto
