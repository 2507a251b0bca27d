import GalataVault.Proto.Signing

/-!
# Request signatures

One credential scheme for owners and tokens. The caller signs the canonical
request: who acts, the method, path and query, the body's digest, the vault, the
time, a nonce and the preconditions. This module defines the bytes both sides
agree on, and the text forms of identifiers and opaque bytes they are built from.
-/

namespace GalataVault.Proto

/-! ## Text forms -/

def hexDigit (n : Nat) : Char := "0123456789abcdef".toList.getD n '0'

/-- Lowercase hexadecimal. -/
def toHex (bytes : List UInt8) : String :=
  String.ofList (bytes.flatMap fun b => [hexDigit (b.toNat / 16), hexDigit (b.toNat % 16)])

/-- The value of a hexadecimal digit of either case. -/
def hexValue (c : Char) : Option Nat :=
  if '0' ≤ c ∧ c ≤ '9' then some (c.toNat - '0'.toNat)
  else if 'a' ≤ c ∧ c ≤ 'f' then some (c.toNat - 'a'.toNat + 10)
  else if 'A' ≤ c ∧ c ≤ 'F' then some (c.toNat - 'A'.toNat + 10)
  else none

/-- The bytes pairs of hexadecimal digits spell. -/
def fromHexPairs : List Char → Option (List UInt8)
  | [] => some []
  | [_] => none
  | high :: low :: rest => do
    let h ← hexValue high
    let l ← hexValue low
    let bytes ← fromHexPairs rest
    pure (UInt8.ofNat (h * 16 + l) :: bytes)

/-- Exactly `n` bytes in hexadecimal, and nothing else. -/
def fromHex (n : Nat) (text : String) : Option (FixedBytes n) := do
  let bytes ← fromHexPairs text.toList
  if size : bytes.length = n then some ⟨bytes, size⟩ else none

def base64Digit (n : Nat) : Char :=
  "ABCDEFGHIJKLMNOPQRSTUVWXYZabcdefghijklmnopqrstuvwxyz0123456789-_".toList.getD n 'A'

/-- Unpadded base64url, three bytes at a time. -/
def base64Chars : List UInt8 → List Char
  | [] => []
  | [a] => [base64Digit (a.toNat / 4), base64Digit (a.toNat % 4 * 16)]
  | [a, b] =>
    [base64Digit (a.toNat / 4), base64Digit (a.toNat % 4 * 16 + b.toNat / 16), base64Digit (b.toNat % 16 * 4)]
  | a :: b :: c :: rest =>
    base64Digit (a.toNat / 4) :: base64Digit (a.toNat % 4 * 16 + b.toNat / 16) ::
      base64Digit (b.toNat % 16 * 4 + c.toNat / 64) :: base64Digit (c.toNat % 64) :: base64Chars rest

def base64 (bytes : List UInt8) : String := String.ofList (base64Chars bytes)

/-! ## Signing input -/

/-- Accepted distance between the request's timestamp and server time. -/
def maxSkewSecs : Int := 300

/-- Who signed: the vault's owner, or one of its tokens. -/
inductive SigActor where
  | owner
  | token (id : TokenId)
deriving DecidableEq

def SigActor.text : SigActor → String
  | owner => "owner"
  | token id => "token:" ++ toHex id.raw.bytes

/-- The parameters of a request signature. -/
structure SigParams where
  actor : SigActor
  vaultId : VaultId
  ts : Int
  nonce : FixedBytes 16
  sig : Sig64
deriving DecidableEq

/-- The request a signature covers, besides the credential and nonce. -/
structure SignedRequest where
  method : String
  pathAndQuery : String
  body : List UInt8
  ifMatch : Option String
  ifNoneMatch : Option String
deriving DecidableEq

/-- `to_ascii_uppercase`. -/
def asciiUppercase (text : String) : String := text.map fun c => if 'a' ≤ c ∧ c ≤ 'z' then c.toUpper else c

/-- The exact bytes an owner or token signs. An absent precondition is an empty
line. -/
def SigParams.signingInput [Digests] (p : SigParams) (request : SignedRequest) : List UInt8 :=
  utf8 <| "\n".intercalate
    [Label.sig, p.actor.text, asciiUppercase request.method, request.pathAndQuery,
      toHex (Digests.sha256 request.body).raw.bytes, toHex p.vaultId.raw.bytes, toString p.ts,
      base64 p.nonce.bytes, request.ifMatch.getD "", request.ifNoneMatch.getD ""]

end GalataVault.Proto
