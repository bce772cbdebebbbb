import SshKeyring.Wire
import SshKeyring.Text.Base64
import SshKeyring.Key.Type

/-! What can be wrong with a key, its container, or the passphrase it was tried with. -/

namespace SshKeyring

/-- Faults in the frame of a PEM block or in its headers. -/
inductive PemFault
  | tooFewRows
  | missingBegin
  | missingEnd
  | boundaryMismatch
  | missingCipherHeader
  | missingVector
  | invalidVector
  deriving DecidableEq, Repr

def PemFault.message : PemFault → String
  | .tooFewRows => "expecting an OpenSSH key"
  | .missingBegin => "missing BEGIN boundary"
  | .missingEnd => "missing END boundary"
  | .boundaryMismatch => "PEM boundary mismatch"
  | .missingCipherHeader => "encrypted key without DEK-Info"
  | .missingVector => "DEK-Info without IV"
  | .invalidVector => "invalid IV in DEK-Info"

/-- Faults in a sequence of DER integers, or in the numbers of a key made from it. -/
inductive DerFault
  | endOfData
  | indefiniteLength
  | lengthTooLarge
  | unexpectedTag
  | lengthExceedsInput
  | emptyInteger
  | tooFewIntegers
  | invalidPrime
  deriving DecidableEq, Repr

def DerFault.message : DerFault → String
  | .endOfData => "unexpected end of data"
  | .indefiniteLength => "indefinite length"
  | .lengthTooLarge => "length field too large"
  | .unexpectedTag => "unexpected tag"
  | .lengthExceedsInput => "length exceeds input"
  | .emptyInteger => "empty integer"
  | .tooFewIntegers => "not enough integers"
  | .invalidPrime => "invalid prime"

inductive GenerationFault
  | invalidModulus
  | noPrime
  deriving DecidableEq, Repr

def GenerationFault.message : GenerationFault → String
  | .invalidModulus => "invalid modulus"
  | .noPrime => "no prime found"

inductive KeyError
  | malformedContainer (fault : PemFault)
  | base64 (fault : Base64.Error)
  | emptyPayload
  | invalidMagic
  | noKeysPresent
  | unknownKeyType (name : String)
  | invalidComponentCount (type : KeyType) (expected found : Nat)
  | securityKeyComponents (type : KeyType)
  | unsupportedContainer (label : String)
  | unknownCipher (name : String)
  | unknownKdf (name : String)
  | der (fault : DerFault)
  | kdfFailed
  | ivTooShort (length : Nat)
  | invalidCipherParameters (keyLength ivLength : Nat)
  | passphraseRequired
  | decryptionFailed
  | wrongPassphraseOrCorruptKey
  | locked
  | truncated
  | generation (fault : GenerationFault)
  | encoding (fault : WireError)
  deriving DecidableEq, Repr

namespace KeyError

def message : KeyError → String
  | .malformedContainer f => s!"Malformed PEM container: {f.message}"
  | .base64 f => s!"Base64 decoding failed: {f.message}"
  | .emptyPayload => "PEM container has an empty payload"
  | .invalidMagic => "Key file magic header id invalid"
  | .noKeysPresent => "Found zero keys"
  | .unknownKeyType name => s!"Unknown key type: {name}"
  | .invalidComponentCount type expected found =>
    s!"{type.name} expects {expected} components, got {found}"
  | .securityKeyComponents type => s!"{type.name} keys cannot be assembled from components"
  | .unsupportedContainer label => s!"Unsupported key container: {label}"
  | .unknownCipher name => s!"Unknown cipher: {name}"
  | .unknownKdf name => s!"Unknown KDF: {name}"
  | .der f => s!"ASN.1 decoding failed: {f.message}"
  | .kdfFailed => "Key derivation failed, key file corrupted?"
  | .ivTooShort n => s!"Cipher IV is too short for MD5 kdf ({n} bytes)"
  | .invalidCipherParameters keyLength ivLength =>
    s!"Invalid cipher parameters: key length {keyLength}, IV length {ivLength}"
  | .passphraseRequired => "Passphrase is required to decrypt this key"
  | .decryptionFailed => "Decryption failed"
  | .wrongPassphraseOrCorruptKey => "Decryption failed, wrong passphrase?"
  | .locked => "Key is locked, unlock it with a passphrase first"
  | .truncated => "Unexpected EOF while reading key data"
  | .generation f => s!"Key generation failed: {f.message}"
  | .encoding f => s!"Key encoding error: {f.message}"

/-- A wire fault met inside a key: running out of bytes has a name of its own. -/
def ofWire : WireError → KeyError
  | .length => .truncated
  | fault => .encoding fault

def trailing (remaining : Nat) : KeyError := .encoding (.trailingData remaining)

end KeyError

/-- The type of a given name. -/
def KeyType.ofName (s : String) : Except KeyError KeyType :=
  match ofName? s with
  | some t => .ok t
  | none => .error (.unknownKeyType s)

/-- The type of a name on the wire. A name that is not UTF-8 is reported with replacement
characters. -/
def KeyType.ofBytes (b : Bytes) : Except KeyError KeyType :=
  match Utf8.decode? b with
  | some s => ofName s
  | none => .error (.unknownKeyType (Utf8.decodeLossy b))

end SshKeyring
