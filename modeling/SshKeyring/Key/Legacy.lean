import SshKeyring.Key.Private
import SshKeyring.Cipher.Decryptor
import SshKeyring.Derive.Md5Chain
import SshKeyring.Der
import SshKeyring.Mpint
import SshKeyring.Pem

/-! Traditional RSA and DSA keys: a sequence of DER integers, encrypted as a whole if the PEM
headers say so. The headers then also name the cipher and give its initial vector, which salts
the derivation of the key. -/

namespace SshKeyring.Legacy

inductive Kind
  | rsa
  | dsa
  deriving DecidableEq, Repr

def Kind.keyType : Kind → KeyType
  | .rsa => .rsa
  | .dsa => .dss

/-- DSA: version, p, q, g, y, x, of which the version is dropped. -/
def dsaKey (body : Bytes) : Except KeyError PrivateKey := do
  let ints ← (Der.integersOf body 6 6).mapError .der
  PrivateKey.ofParts .dss ((ints.drop 1).map Mpint.ofMagnitude)

/-- The inverse of q modulo p: the last of the three integers after them, or worked out where not
all of these are there. -/
def inverse (p q : Bytes) : List Bytes → Except KeyError Bytes
  | [_, _, given] => .ok (Mpint.ofMagnitude given)
  | _ => Mpint.crtCoefficient p q

/-- RSA: version, n, e, d, p, q and up to three more. -/
def rsaKey (body : Bytes) : Except KeyError PrivateKey := do
  match ← (Der.integersOf body 6 9).mapError .der with
  | _ :: n :: e :: d :: p :: q :: rest =>
    let inverse ← inverse p q rest
    let mpint := Mpint.ofMagnitude
    PrivateKey.ofParts .rsa [mpint n, mpint e, mpint d, inverse, mpint p, mpint q]
  | _ => throw (.der .tooFewIntegers)

def decode : Kind → Bytes → Except KeyError PrivateKey
  | .rsa => rsaKey
  | .dsa => dsaKey

def lower (text : List Char) : List Char := text.map Char.toLower

/-- Whether the headers say that the body is encrypted. -/
def isEncrypted (p : PemBlock) : Bool :=
  match p.header "Proc-Type" with
  | some value => lower (trim value.toList) = lower "4,ENCRYPTED".toList
  | none => false

/-- The initial vector that a header spells in hexadecimal digits. -/
def initialVector (text : List Char) : Except KeyError Bytes :=
  match Hex.decodePairs? text with
  | some iv => .ok iv
  | none => .error (.malformedContainer .invalidVector)

/-- The cipher's name and the initial vector from the headers. -/
def encryption (p : PemBlock) : Except KeyError (String × Bytes) := do
  let some info := p.header "DEK-Info" | throw (.malformedContainer .missingCipherHeader)
  let name := info.toList.takeWhile (· ≠ ',')
  let ',' :: vector := info.toList.dropWhile (· ≠ ',') | throw (.malformedContainer .missingVector)
  return (String.ofList (trim name), ← initialVector (trim vector))

/-- The body as plain text. -/
def decrypt (cipher : String) (iv body : Bytes) (passphrase : String) : Except KeyError Bytes := do
  let some kind := CipherKind.ofName? cipher | throw (.unknownCipher cipher)
  if passphrase.isEmpty then throw .passphraseRequired
  let key ← Md5Chain.derive (Utf8.encode passphrase) iv kind.keySize
  let decryptor ← Decryptor.ofKey kind key iv
  decryptor.decrypt body

def publicLabel : String := "RSA PUBLIC KEY"

/-- The public key of an `RSA PUBLIC KEY` block, its two integers as they stand there. -/
def publicKey (p : PemBlock) : Except KeyError PublicKey := do
  if p.label ≠ publicLabel then throw (.unsupportedContainer p.label)
  match ← (Der.integersOf p.data 2 2).mapError .der with
  | [n, e] => PublicKey.ofParts .rsa [e, n]
  | _ => throw (.der .tooFewIntegers)

end SshKeyring.Legacy
