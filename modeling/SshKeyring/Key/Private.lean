import SshKeyring.Key.Public

/-! The private half of a key. Its strings are kept as they stand on the wire, so that they can
be handed to an agent without being understood. Between the type name and the strings, security
keys have a preamble: the three public strings and a byte of flags, kept in their encoded
form. -/

namespace SshKeyring

structure PrivateKey where
  type : KeyType
  preamble : Bytes
  parts : List Bytes
  deriving DecidableEq, Repr

namespace PrivateKey

/-- As many parts as the type has, after a preamble of three strings and a byte for security keys
and after none for the others. The strings of a preamble are no longer than readers take them. -/
def WellFormed (k : PrivateKey) : Prop :=
  k.parts.length = k.type.privateParts ∧
    if k.type.isSecurityKey then
      ∃ strings b flags, strings.length = 3 ∧ (∀ s ∈ strings, s.length ≤ Wire.maxLength) ∧
        Wire.putStrings strings = .ok b ∧ k.preamble = b ++ [flags]
    else k.preamble = []

def ofParts (type : KeyType) (parts : List Bytes) : Except KeyError PrivateKey :=
  if type.isSecurityKey then .error (.securityKeyComponents type)
  else if parts.length = type.privateParts then .ok { type, preamble := [], parts }
  else .error (.invalidComponentCount type type.privateParts parts.length)

/-- The preamble of a security key, encoded again as it was read. -/
def readPreamble : Reader WireError Bytes := do
  let strings ← Wire.string.times 3
  let flags ← Wire.byte
  match Wire.putStrings strings with
  | .ok b => pure (b ++ [flags])
  | .error e => Reader.fail e

/-- What stands between the type name and the parts: a preamble in security keys, nothing in the
others. -/
def readPreambleOf (type : KeyType) : Reader KeyError Bytes :=
  if type.isSecurityKey then readPreamble.mapError .ofWire else pure []

def read : Reader KeyError PrivateKey := do
  let type ← KeyType.read
  let preamble ← readPreambleOf type
  let parts ← (Wire.string.times type.privateParts).mapError .ofWire
  return { type, preamble, parts }

def ofBytes (b : Bytes) : Except KeyError PrivateKey := read.whole .trailing b

def encode (k : PrivateKey) : Except WireError Bytes := do
  let name ← Wire.putText k.type.name
  return name ++ k.preamble ++ (← Wire.putStrings k.parts)

/-- The length of what is written, found without writing it. -/
def checkedLength (k : PrivateKey) : Except WireError Nat := do
  let front ← Wire.checkedSum (← Wire.checkedTextSize k.type.name) k.preamble.length
  Wire.checkedTotal Wire.checkedStringSize front k.parts

def bytes (k : PrivateKey) : Except KeyError Bytes := k.encode.mapError .ofWire

/-- The public half. RSA keeps the modulus before the exponent in private and after it in
public; security keys have their public strings in the preamble. -/
def publicKey (k : PrivateKey) : Except KeyError PublicKey :=
  match k.type, k.parts with
  | .rsa, n :: e :: _ => PublicKey.ofParts .rsa [e, n]
  | .skEcdsaP256, _ =>
    match (Wire.string.times 3).mapError KeyError.ofWire k.preamble with
    | .ok (strings, _) => PublicKey.ofParts .skEcdsaP256 strings
    | .error e => .error e
  | type, parts => PublicKey.ofParts type (parts.take type.publicParts)

/-- Equality of two strings of one length, decided once the differences of all their bytes have
been gathered. -/
def sameBytes (a b : Bytes) : Bool :=
  a.length == b.length && (List.zipWith (· ^^^ ·) a b).foldl (· ||| ·) 0 == 0

/-- Equality of type, number of parts, preamble and every part, in that order. -/
def same (a b : PrivateKey) : Bool :=
  if a.type ≠ b.type ∨ a.parts.length ≠ b.parts.length then false
  else
    (List.zip a.parts b.parts).foldl (fun equal (x, y) => equal && sameBytes x y)
      (sameBytes a.preamble b.preamble)

/-- What a log may show of a key: its type and nothing of the rest. -/
def redacted (k : PrivateKey) : String :=
  let type :=
    match k.type with
    | .dss => "Dss"
    | .rsa => "Rsa"
    | .ecdsa .nistP256 => "Ecdsa(NistP256)"
    | .ecdsa .nistP384 => "Ecdsa(NistP384)"
    | .ecdsa .nistP521 => "Ecdsa(NistP521)"
    | .ed25519 => "Ed25519"
    | .skEcdsaP256 => "SkEcdsaP256"
  s!"PrivateKey \x7b key_type: {type}, .. \x7d"

end PrivateKey

end SshKeyring
