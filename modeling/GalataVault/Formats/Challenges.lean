import GalataVault.Formats.Descriptors
import GalataVault.Formats.SigHeaders
import GalataVault.Library.Comparison
import GalataVault.Library.MachineInt
import GalataVault.Library.Radix

/-!
# Proof-of-work challenges

A challenge is stateless: its token carries the id, the expiry and the difficulty, and a
tag that only the holder of the server's key can compute. A solution is a nonce whose hash
after the token begins with as many zero bits as the challenge asks for.

The keyed hash is a parameter, and so is the hash of a solution.
-/

namespace GalataVault.Proto

open MachineInt (i64)
open Formats (slice beI64_bounds beBytesI64_field)

/-- blake3 in keyed mode. -/
class KeyedDigests where
  blake3Keyed : FixedBytes 32 → List UInt8 → Hash32

/-- What the proof-of-work hash is derived under. -/
def powContext : String := "galata-vault v1 proof-of-work"

/-- Above this, a challenge is refused as malformed rather than solved forever. -/
def maxDifficulty : UInt8 := 40

/-- How long a challenge stays solvable. -/
def challengeTtlSecs : Int := 600

def payloadLen : Nat := 16 + 8 + 1
def tagLen : Nat := 16

inductive PowError where
  | malformed
  | tampered
  | expired
deriving DecidableEq

@[ext]
structure Challenge where
  id : FixedBytes 16
  expiresAt : Int
  difficulty : UInt8
  /-- The expiry is a signed integer of 64 bits. -/
  typed : i64.Holds expiresAt

namespace Challenge

def payload (c : Challenge) : List UInt8 := c.id.bytes ++ beBytesI64 c.expiresAt ++ [c.difficulty]

section

variable [KeyedDigests]

/-- The tag of a payload. -/
def tag (serverKey : FixedBytes 32) (payload : List UInt8) : List UInt8 :=
  (KeyedDigests.blake3Keyed serverKey payload).raw.bytes.take tagLen

/-- The token handed to a client. -/
def issue (c : Challenge) (serverKey : FixedBytes 32) : String := base64 (c.payload ++ tag serverKey c.payload)

/-- The challenge a payload spells, its expiry and difficulty checked. -/
def ofPayload (payload : List UInt8) (now : Int) : Except PowError Challenge :=
  if size : payload.length = payloadLen then
    let expiresAt := slice payload 16 8 (by rw [size]; decide)
    let difficulty := payload.getD 24 0
    if maxDifficulty < difficulty then .error .malformed
    else if beI64 expiresAt.bytes < now then .error .expired
    else
      .ok
        { id := slice payload 0 16 (by rw [size]; decide)
          expiresAt := beI64 expiresAt.bytes
          difficulty := difficulty
          typed := beI64_bounds expiresAt }
  else .error .malformed

/-- Authenticate and decode a token this server issued. -/
def openToken (token : String) (serverKey : FixedBytes 32) (now : Int) : Except PowError Challenge :=
  match fromBase64Chars token.toList with
  | none => .error .malformed
  | some raw =>
    if raw.length ≠ payloadLen + tagLen then .error .malformed
    else
      let payload := raw.take payloadLen
      -- The XOR of every byte is folded before deciding.
      if Comparison.differences (tag serverKey payload) (raw.drop payloadLen) ≠ 0 then .error .tampered
      else ofPayload payload now

end

end Challenge

/-! ## Solutions -/

/-- The hash of a nonce after a token. -/
def powHash [Digests] (token : String) (nonce : Nat) : List UInt8 :=
  (Digests.blake3DeriveKey powContext (utf8 token ++ (beBytes 8 nonce).reverse)).raw.bytes

/-- The zero bits a byte begins with. -/
def leadingZeros (b : UInt8) : Nat := 8 - b.toNat.size

def leadingZeroBits : List UInt8 → Nat
  | [] => 0
  | b :: rest => if b = 0 then 8 + leadingZeroBits rest else leadingZeros b

def verifyNonce [Digests] (token : String) (difficulty : UInt8) (nonce : Nat) : Bool :=
  decide (difficulty.toNat ≤ leadingZeroBits (powHash token nonce))

/-- The first of `count` nonces from `nonce` on that verifies. -/
def searchNonce [Digests] (token : String) (difficulty : UInt8) : Nat → Nat → Option Nat
  | 0, _ => none
  | count + 1, nonce =>
    if verifyNonce token difficulty nonce then some nonce else searchNonce token difficulty count (nonce + 1)

/-- Find a nonce, among all those of 64 bits. -/
def solve [Digests] (token : String) (difficulty : UInt8) : Except PowError Nat :=
  if maxDifficulty < difficulty then .error .malformed
  else
    match searchNonce token difficulty (2 ^ 64) 0 with
    | some nonce => .ok nonce
    | none => .error .malformed

/-! ## Tokens -/

namespace Challenge

theorem payload_length (c : Challenge) : c.payload.length = payloadLen := by
  simp [payload, payloadLen, beBytesI64_length]

/-- A payload spells its challenge, which is then checked. -/
theorem ofPayload_payload (c : Challenge) (now : Int) :
    ofPayload c.payload now =
      if maxDifficulty < c.difficulty then .error .malformed
      else if c.expiresAt < now then .error .expired
      else .ok c := by
  have size := c.payload_length
  have id : slice c.payload 0 16 (by rw [size]; decide) = c.id := by
    obtain ⟨⟨bytes, width⟩, _, _, _⟩ := c
    simp only [slice, payload, List.drop_zero, List.append_assoc, FixedBytes.mk.injEq]
    exact List.take_left' width
  have expiry : (slice c.payload 16 8 (by rw [size]; decide)).bytes = beBytesI64 c.expiresAt := by
    simp only [slice, payload, List.append_assoc]
    rw [List.drop_left' c.id.size, List.take_left' (beBytesI64_length _)]
  have difficulty : c.payload.getD 24 0 = c.difficulty := by
    have before : (c.id.bytes ++ beBytesI64 c.expiresAt).length = 24 := by simp [beBytesI64_length]
    simp only [payload, List.getD_eq_getElem?_getD]
    rw [← before, List.getElem?_concat_length]
    rfl
  have stamp := beI64_beBytesI64 c.typed.1 c.typed.2
  unfold ofPayload
  rw [dif_pos size]
  simp only [id, expiry, difficulty, stamp]

/-- Any bytes of the width of a payload are one. -/
theorem exists_payload {bytes : List UInt8} (size : bytes.length = payloadLen) : ∃ c : Challenge, c.payload = bytes := by
  have wide : 16 + 8 ≤ bytes.length := by
    rw [size]
    decide
  have first : 0 + 16 ≤ bytes.length := by omega
  have last : bytes.drop 24 = [bytes.getD 24 0] := by
    have inside : 24 < bytes.length := by
      rw [size]
      decide
    rw [List.drop_eq_getElem_cons inside, List.getD_eq_getElem _ _ inside]
    simp only [List.cons.injEq, true_and, List.drop_eq_nil_iff]
    rw [size]
    decide
  refine ⟨⟨slice bytes 0 16 first, beI64 (slice bytes 16 8 wide).bytes, bytes.getD 24 0, beI64_bounds _⟩, ?_⟩
  rw [payload, beBytesI64_field, ← last]
  change (bytes.drop 0).take 16 ++ (bytes.drop 16).take 8 ++ bytes.drop 24 = bytes
  rw [List.drop_zero, List.append_assoc, ← List.drop_drop (i := 8) (j := 16), List.take_append_drop, List.take_append_drop]

theorem payload_injective : Function.Injective payload := by
  intro c c' same
  obtain ⟨front, last⟩ := List.append_inj' same rfl
  obtain ⟨id, expiry⟩ := List.append_inj front (c.id.size.trans c'.id.size.symm)
  ext1
  · exact FixedBytes.bytes_injective id
  · exact beBytesI64_injective c.typed.1 c.typed.2 c'.typed.1 c'.typed.2 expiry
  · simpa using last

variable [KeyedDigests]

theorem tag_length (serverKey : FixedBytes 32) (bytes : List UInt8) : (tag serverKey bytes).length = tagLen := by
  simp [tag, tagLen]

/-- What the token of any payload and tag opens to. -/
theorem openToken_given (c : Challenge) {given : List UInt8} (size : given.length = tagLen) (serverKey : FixedBytes 32)
    (now : Int) :
    openToken (base64 (c.payload ++ given)) serverKey now =
      if given ≠ tag serverKey c.payload then .error .tampered
      else if maxDifficulty < c.difficulty then .error .malformed
      else if c.expiresAt < now then .error .expired
      else .ok c := by
  have decoded : fromBase64Chars (base64 (c.payload ++ given)).toList = some (c.payload ++ given) := by
    rw [base64, String.toList_ofList, fromBase64Chars_base64Chars]
  have whole : (c.payload ++ given).length = payloadLen + tagLen := by rw [List.length_append, c.payload_length, size]
  have agrees : Comparison.differences (tag serverKey c.payload) given = 0 ↔ given = tag serverKey c.payload := by
    rw [Comparison.differences_eq_zero ((tag_length ..).trans size.symm), eq_comm]
  unfold openToken
  rw [decoded]
  dsimp only
  rw [if_neg (not_not.mpr whole), List.take_left' c.payload_length, List.drop_left' c.payload_length, ofPayload_payload]
  by_cases same : given = tag serverKey c.payload
  · rw [if_neg (not_not.mpr (agrees.mpr same)), if_neg (not_not.mpr same)]
  · rw [if_pos (mt agrees.mp same), if_pos same]

/-- A text that is not the token of a payload and a tag is malformed. -/
theorem openToken_other {token : String} (serverKey : FixedBytes 32) (now : Int)
    (other : ∀ (c : Challenge) given, given.length = tagLen → token ≠ base64 (c.payload ++ given)) :
    openToken token serverKey now = .error .malformed := by
  unfold openToken
  cases decoded : fromBase64Chars token.toList with
  | none => rfl
  | some raw =>
    dsimp only
    rw [if_pos]
    intro size
    have front : (raw.take payloadLen).length = payloadLen := by
      rw [List.length_take, size]
      decide
    obtain ⟨c, spelled⟩ := exists_payload front
    apply other c (raw.drop payloadLen)
    · rw [List.length_drop, size]
      decide
    · rw [spelled, List.take_append_drop, base64, ← base64Chars_of_read decoded, String.ofList_toList]

omit [KeyedDigests] in
/-- A token has one payload and one tag. -/
theorem given_injective {c c' : Challenge} {given given' : List UInt8}
    (same : base64 (c.payload ++ given) = base64 (c'.payload ++ given')) : c = c' ∧ given = given' := by
  have read := congrArg fromBase64Chars (String.ofList_injective same)
  rw [fromBase64Chars_base64Chars, fromBase64Chars_base64Chars] at read
  obtain ⟨front, back⟩ := List.append_inj (Option.some.inj read) (c.payload_length.trans c'.payload_length.symm)
  exact ⟨payload_injective front, back⟩

/-- For every text, key and time, whatever the keyed hash: a token opens to a challenge only if it
is the very text the server issued for that challenge under this key, at most as difficult as is
allowed and not expired; it is expired only if it was issued so; and it is tampered with only if it
spells a challenge with another tag. -/
theorem openToken_exact (token : String) (serverKey : FixedBytes 32) (now : Int) :
    (∀ c, openToken token serverKey now = .ok c ↔
      token = c.issue serverKey ∧ c.difficulty ≤ maxDifficulty ∧ now ≤ c.expiresAt) ∧
    (openToken token serverKey now = .error .expired ↔
      ∃ c : Challenge, token = c.issue serverKey ∧ c.difficulty ≤ maxDifficulty ∧ c.expiresAt < now) ∧
    (openToken token serverKey now = .error .tampered ↔
      ∃ (c : Challenge) (given : List UInt8), given.length = tagLen ∧ given ≠ tag serverKey c.payload ∧
        token = base64 (c.payload ++ given)) := by
  by_cases spells : ∃ (c : Challenge) (given : List UInt8), given.length = tagLen ∧ token = base64 (c.payload ++ given)
  · obtain ⟨c, given, size, rfl⟩ := spells
    have one : ∀ c' : Challenge, base64 (c.payload ++ given) = c'.issue serverKey ↔ c' = c ∧ given = tag serverKey c.payload := by
      intro c'
      constructor
      · intro same
        obtain ⟨rfl, tagged⟩ := given_injective same
        exact ⟨rfl, tagged⟩
      · rintro ⟨rfl, rfl⟩
        rfl
    have other : ∀ (c' : Challenge) given', base64 (c.payload ++ given) = base64 (c'.payload ++ given') ↔ c' = c ∧ given' = given := by
      intro c' given'
      constructor
      · intro same
        obtain ⟨rfl, rfl⟩ := given_injective same
        exact ⟨rfl, rfl⟩
      · rintro ⟨rfl, rfl⟩
        rfl
    rw [openToken_given c size]
    simp only [one, other]
    refine ⟨fun c' => ?_, ?_, ?_⟩
    · split_ifs with tampered hard late
      · simp [tampered]
      · constructor
        · intro impossible
          cases impossible
        · rintro ⟨⟨rfl, _⟩, easy, _⟩
          exact absurd hard (UInt8.not_lt.mpr easy)
      · constructor
        · intro impossible
          cases impossible
        · rintro ⟨⟨rfl, _⟩, _, current⟩
          omega
      · constructor
        · intro same
          obtain rfl := Except.ok.inj same
          exact ⟨⟨rfl, not_not.mp tampered⟩, UInt8.not_lt.mp hard, not_lt.mp late⟩
        · rintro ⟨⟨rfl, _⟩, _⟩
          rfl
    · split_ifs with tampered hard late
      · simp [tampered]
      · simp [hard]
      · simp only [true_iff]
        exact ⟨c, ⟨rfl, not_not.mp tampered⟩, UInt8.not_lt.mp hard, late⟩
      · simp [late]
    · split_ifs with tampered hard late
      · simp only [true_iff]
        exact ⟨c, given, size, tampered, rfl, rfl⟩
      all_goals
        simp only [Except.error.injEq, reduceCtorEq, false_iff]
        rintro ⟨_, _, _, differs, rfl, rfl⟩
        exact tampered differs
  · have other : ∀ (c : Challenge) given, given.length = tagLen → token ≠ base64 (c.payload ++ given) :=
      fun c given size same => spells ⟨c, given, size, same⟩
    have unissued : ∀ c : Challenge, token ≠ c.issue serverKey := fun c => other c _ (tag_length ..)
    rw [openToken_other serverKey now other]
    refine ⟨fun c => ?_, ?_, ?_⟩
    · simp [unissued]
    · simp [unissued]
    · simp only [Except.error.injEq, reduceCtorEq, false_iff]
      rintro ⟨c, given, size, _, same⟩
      exact other c given size same

end Challenge

/-! ## Zero bits -/

theorem beNat_cons (b : UInt8) (rest : List UInt8) : beNat (b :: rest) = b.toNat * 256 ^ rest.length + beNat rest := by
  induction rest using List.reverseRecOn with
  | nil => simp [beNat]
  | append_singleton front last inductionHypothesis =>
    rw [← List.cons_append, beNat_append, inductionHypothesis, beNat_append, List.length_append, List.length_singleton, pow_succ]
    ring

/-- Bytes begin with `bits` zero bits exactly if the number they spell is that many bits short. -/
theorem leadingZeroBits_iff (hash : List UInt8) {bits : Nat} (room : bits ≤ 8 * hash.length) :
    bits ≤ leadingZeroBits hash ↔ beNat hash < 2 ^ (8 * hash.length - bits) := by
  induction hash generalizing bits with
  | nil =>
    obtain rfl : bits = 0 := by simpa using room
    simp [beNat, leadingZeroBits]
  | cons b rest inductionHypothesis =>
    have width : 256 ^ rest.length = 2 ^ (8 * rest.length) := by rw [show (256 : Nat) = 2 ^ 8 from rfl, ← pow_mul]
    have below : beNat rest < 2 ^ (8 * rest.length) := width ▸ Formats.beNat_lt rest
    rw [List.length_cons] at room ⊢
    rw [beNat_cons, width, leadingZeroBits]
    split
    · next zero =>
      rw [zero, UInt8.toNat_zero, Nat.zero_mul, Nat.zero_add]
      by_cases few : bits ≤ 8
      · have more : 2 ^ (8 * rest.length) ≤ 2 ^ (8 * (rest.length + 1) - bits) := Nat.pow_le_pow_right (by decide) (by omega)
        exact iff_of_true (by omega) (by omega)
      · have tail := @inductionHypothesis (bits - 8) (by omega)
        rw [show 8 * (rest.length + 1) - bits = 8 * rest.length - (bits - 8) by omega, ← tail]
        omega
    · next nonzero =>
      have positive : 0 < b.toNat := Nat.pos_of_ne_zero fun zero => nonzero (UInt8.toNat_inj.mp zero)
      have short : b.toNat.size ≤ 8 := Nat.size_le.mpr b.toNat_lt
      have long : 0 < b.toNat.size := Nat.size_pos.mpr positive
      by_cases few : bits ≤ 8
      · have split_width : 2 ^ (8 * (rest.length + 1) - bits) = 2 ^ (8 - bits) * 2 ^ (8 * rest.length) := by
          rw [← pow_add]
          congr 1
          omega
        have first : bits ≤ leadingZeros b ↔ b.toNat < 2 ^ (8 - bits) := by
          rw [← Nat.size_le, leadingZeros]
          omega
        rw [first, split_width]
        constructor
        · intro small
          calc b.toNat * 2 ^ (8 * rest.length) + beNat rest
              < b.toNat * 2 ^ (8 * rest.length) + 2 ^ (8 * rest.length) := by omega
            _ = (b.toNat + 1) * 2 ^ (8 * rest.length) := by ring
            _ ≤ 2 ^ (8 - bits) * 2 ^ (8 * rest.length) := Nat.mul_le_mul_right _ small
        · intro small
          by_contra large
          have := Nat.mul_le_mul_right (2 ^ (8 * rest.length)) (Nat.not_lt.mp large)
          omega
      · have less : 2 ^ (8 * (rest.length + 1) - bits) ≤ 2 ^ (8 * rest.length) := Nat.pow_le_pow_right (by decide) (by omega)
        have more : 2 ^ (8 * rest.length) ≤ b.toNat * 2 ^ (8 * rest.length) := Nat.le_mul_of_pos_left _ positive
        refine iff_of_false ?_ (by omega)
        unfold leadingZeros
        omega

/-! ## The search -/

section Search

variable [Digests] {token : String} {difficulty : UInt8}

theorem verifyNonce_iff {nonce : Nat} :
    verifyNonce token difficulty nonce = true ↔ beNat (powHash token nonce) < 2 ^ (256 - difficulty.toNat) := by
  have size : (powHash token nonce).length = 32 := by simp [powHash]
  have room : difficulty.toNat ≤ 8 * (powHash token nonce).length := by
    have := difficulty.toNat_lt
    omega
  rw [verifyNonce, decide_eq_true_iff, leadingZeroBits_iff _ room, size]

theorem searchNonce_eq_some {count nonce found : Nat} :
    searchNonce token difficulty count nonce = some found ↔
      nonce ≤ found ∧ found < nonce + count ∧ verifyNonce token difficulty found = true ∧
        ∀ m, nonce ≤ m → m < found → verifyNonce token difficulty m = false := by
  induction count generalizing nonce with
  | zero =>
    simp only [searchNonce, reduceCtorEq, false_iff]
    omega
  | succ count inductionHypothesis =>
    rw [searchNonce]
    split
    · next verifies =>
      constructor
      · intro same
        obtain rfl := Option.some.inj same
        exact ⟨le_refl _, by omega, verifies, fun m low high => by omega⟩
      · rintro ⟨low, _, _, least⟩
        rcases Nat.eq_or_lt_of_le low with rfl | later
        · rfl
        · rw [least nonce (le_refl _) later] at verifies
          cases verifies
    · next fails =>
      rw [inductionHypothesis]
      constructor
      · rintro ⟨low, high, verifies, least⟩
        refine ⟨by omega, by omega, verifies, fun m from_ before => ?_⟩
        rcases Nat.eq_or_lt_of_le from_ with rfl | later
        · exact Bool.eq_false_iff.mpr fails
        · exact least m later before
      · rintro ⟨low, high, verifies, least⟩
        rcases Nat.eq_or_lt_of_le low with rfl | later
        · exact absurd verifies fails
        · exact ⟨later, by omega, verifies, fun m from_ before => least m (by omega) before⟩

/-- The search finds the least nonce of 64 bits whose hash, read as a number, is short enough, for
every token and every difficulty that is allowed; it is malformed only if the difficulty is not, or
there is none. -/
theorem solve_exact (token : String) (difficulty : UInt8) :
    (∀ nonce, solve token difficulty = .ok nonce ↔ difficulty ≤ maxDifficulty ∧ nonce < 2 ^ 64 ∧
      beNat (powHash token nonce) < 2 ^ (256 - difficulty.toNat) ∧
      ∀ m < nonce, 2 ^ (256 - difficulty.toNat) ≤ beNat (powHash token m)) ∧
    (∀ e, solve token difficulty = .error e ↔ e = .malformed ∧
      (maxDifficulty < difficulty ∨ ∀ m < 2 ^ 64, 2 ^ (256 - difficulty.toNat) ≤ beNat (powHash token m))) := by
  have fails : ∀ {m}, verifyNonce token difficulty m = false ↔ 2 ^ (256 - difficulty.toNat) ≤ beNat (powHash token m) := by
    intro m
    rw [← Nat.not_lt, ← verifyNonce_iff, Bool.not_eq_true]
  unfold solve
  by_cases hard : maxDifficulty < difficulty
  · rw [if_pos hard]
    refine ⟨fun nonce => ?_, fun e => ?_⟩
    · simp only [reduceCtorEq, false_iff]
      exact fun claimed => absurd hard (UInt8.not_lt.mpr claimed.1)
    · simp [hard, eq_comm]
  · rw [if_neg hard]
    cases found : searchNonce token difficulty (2 ^ 64) 0 with
    | some least =>
      obtain ⟨_, small, verifies, first⟩ := searchNonce_eq_some.mp found
      rw [Nat.zero_add] at small
      have short := verifyNonce_iff.mp verifies
      refine ⟨fun nonce => ⟨?_, ?_⟩, fun e => ⟨?_, ?_⟩⟩
      · intro same
        obtain rfl := Except.ok.inj same
        exact ⟨UInt8.not_lt.mp hard, small, short, fun m before => fails.mp (first m (Nat.zero_le _) before)⟩
      · rintro ⟨_, _, solves, least'⟩
        rcases Nat.lt_trichotomy least nonce with earlier | rfl | later
        · have := least' least earlier
          omega
        · rfl
        · have := fails.mp (first nonce (Nat.zero_le _) later)
          omega
      · intro impossible
        cases impossible
      · rintro ⟨_, harder | none⟩
        · exact absurd harder hard
        · have := none least small
          omega
    | none =>
      have nothing : ∀ m < 2 ^ 64, 2 ^ (256 - difficulty.toNat) ≤ beNat (powHash token m) := by
        intro m
        induction m using Nat.strong_induction_on with
        | _ m inductionHypothesis =>
          intro small
          by_contra short
          have here : searchNonce token difficulty (2 ^ 64) 0 = some m :=
            searchNonce_eq_some.mpr ⟨Nat.zero_le _, by omega, verifyNonce_iff.mpr (Nat.not_le.mp short),
              fun m' _ before => fails.mpr (inductionHypothesis m' before (by omega))⟩
          rw [found] at here
          cases here
      refine ⟨fun nonce => ?_, fun e => ?_⟩
      · simp only [reduceCtorEq, false_iff]
        rintro ⟨_, small, short, _⟩
        have := nothing nonce small
        omega
      · simp only [Except.error.injEq]
        exact ⟨fun same => ⟨same.symm, .inr nothing⟩, fun claimed => claimed.1.symm⟩

end Search

end GalataVault.Proto
