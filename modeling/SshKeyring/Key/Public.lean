import SshKeyring.Key.Error
import SshKeyring.Digest.Md5
import SshKeyring.Digest.Sha2
import SshKeyring.Text.Hex

/-! The public half of a key: its type and the strings that follow the type name on the wire.
The blob of those is what an agent is sent and what a fingerprint hashes. -/

namespace SshKeyring

structure PublicKey where
  type : KeyType
  parts : List Bytes
  deriving DecidableEq, Repr

/-- The type that the next string names. -/
def KeyType.read : Reader KeyError KeyType := do
  let name ← Wire.string.mapError .ofWire
  match KeyType.ofBytes name with
  | .ok t => pure t
  | .error e => Reader.fail e

namespace PublicKey

/-- As many parts as the type has. -/
def WellFormed (k : PublicKey) : Prop := k.parts.length = k.type.publicParts

instance (k : PublicKey) : Decidable k.WellFormed := inferInstanceAs (Decidable (_ = _))

def ofParts (type : KeyType) (parts : List Bytes) : Except KeyError PublicKey :=
  if parts.length = type.publicParts then .ok { type, parts }
  else .error (.invalidComponentCount type type.publicParts parts.length)

def read : Reader KeyError PublicKey := do
  let type ← KeyType.read
  let parts ← (Wire.string.times type.publicParts).mapError .ofWire
  return { type, parts }

def ofBlob (blob : Bytes) : Except KeyError PublicKey := read.whole .trailing blob

def encode (k : PublicKey) : Except WireError Bytes := do
  let name ← Wire.putText k.type.name
  return name ++ (← Wire.putStrings k.parts)

/-- The length of the blob as a number of any size. -/
def encodedLength (k : PublicKey) : Nat :=
  Wire.stringSize (Utf8.encode k.type.name) + Wire.stringsSize k.parts

/-- The same, with a check that a length can be as large. -/
def checkedLength (k : PublicKey) : Except WireError Nat := do
  Wire.checkedTotal Wire.checkedStringSize (← Wire.checkedTextSize k.type.name) k.parts

/-- The length of the blob behind its count. -/
def checkedCountedLength (k : PublicKey) : Except WireError Nat := do
  Wire.checkedSum 4 (← k.checkedLength)

/-- The blob behind the count of its bytes. -/
def encodeCounted (k : PublicKey) : Except WireError Bytes := do
  let count ← Wire.putCount k.encodedLength
  return count ++ (← k.encode)

def blob (k : PublicKey) : Except KeyError Bytes := k.encode.mapError .ofWire

/-- The size in bits, read off the lengths of the parts: zero for security keys and for a
wrong number of parts. -/
def bits (k : PublicKey) : Nat :=
  match k.type, k.parts with
  | .dss, [p, _, _, _] => (p.length - 1) * 8
  | .rsa, [_, n] => (n.length - 1) * 8
  | .ecdsa _, [_, point] => (point.length - 1) * 4
  | .ed25519, [point] => point.length * 8
  | _, _ => 0

/-- The type name, the blob in Base64 and, unless it is empty, the comment, with a space
between two of them. -/
def line (k : PublicKey) (comment : String) : Except KeyError String := do
  let body := s!"{k.type.name} {String.ofList (Base64.encode (← k.blob))}"
  return if comment.isEmpty then body else s!"{body} {comment}"

end PublicKey

inductive HashAlgorithm
  | md5
  | sha256
  | sha512
  deriving DecidableEq, Repr

namespace HashAlgorithm

def digest : HashAlgorithm → Bytes → Bytes
  | .md5 => SshKeyring.md5
  | .sha256 => SshKeyring.sha256
  | .sha512 => SshKeyring.sha512

/-- A digest as text, each algorithm in its own spelling. -/
def render : HashAlgorithm → Bytes → String
  | .md5, d => "MD5:" ++ String.ofList (Hex.encodeColons d)
  | .sha256, d => "SHA256:" ++ String.ofList (Base64.encodeUnpadded d)
  | .sha512, d => "HASH:" ++ String.ofList (Hex.encode d)

end HashAlgorithm

def PublicKey.fingerprint (k : PublicKey) (a : HashAlgorithm) : Except KeyError String :=
  return a.render (a.digest (← k.blob))

end SshKeyring
