import SshKeyring.Key.Private
import SshKeyring.Derive.Options
import SshKeyring.Derive.Bcrypt
import SshKeyring.Cipher.Decryptor

/-! The `openssh-key-v1` container: the names of a cipher and a key derivation, the options of
the latter, a number of public keys, and a private section that may be encrypted. Only the
first key of a container is used. A private section begins with one integer written twice,
which tells a wrong passphrase from the right one, and ends in the padding 1, 2, 3, …. -/

namespace SshKeyring

structure Container where
  cipher : String
  kdf : String
  kdfOptions : Bytes
  publicKey : PublicKey
  /-- The private section, encrypted unless the cipher is `none`. -/
  body : Bytes
  deriving DecidableEq, Repr

/-- What a private section holds, padding apart. -/
structure PrivateSection where
  privateKey : PrivateKey
  comment : String
  deriving DecidableEq, Repr

def noneName : String := "none"

def bcryptName : String := "bcrypt"

namespace PrivateSection

def blockSize : Nat := 8

/-- The two check integers at the front. -/
def readChecks : Reader KeyError (UInt32 × UInt32) := Reader.mapError .ofWire do
  return (← Wire.word, ← Wire.word)

def read (type : KeyType) : Reader KeyError PrivateSection := do
  let (check, again) ← readChecks
  if check ≠ again then Reader.fail .wrongPassphraseOrCorruptKey
  else
    let privateKey ← PrivateKey.read
    if privateKey.type ≠ type then Reader.fail .wrongPassphraseOrCorruptKey
    else
      let comment ← Wire.string.mapError .ofWire
      return { privateKey, comment := Utf8.decodeLossy comment }

/-- The section's key, which has to have the given type, and its comment. -/
def decode (type : KeyType) (b : Bytes) : Except KeyError PrivateSection :=
  (read type b).map (·.1)

/-- A section that is being padded: the bytes it has so far and the one that would come next. -/
structure Padded where
  bytes : Bytes
  next : UInt8
  deriving DecidableEq, Repr

namespace Padded

/-- How many bytes are missing from a whole number of blocks. -/
def missing (p : Padded) : Nat := (blockSize - p.bytes.length % blockSize) % blockSize

/-- One byte more, unless the section is a whole number of blocks. -/
def step? (p : Padded) : Option Padded :=
  if p.bytes.length % blockSize = 0 then none
  else some { bytes := p.bytes ++ [p.next], next := p.next + 1 }

theorem missing_of_step? {p q : Padded} (h : p.step? = some q) : p.missing = q.missing + 1 := by
  unfold step? at h
  split at h
  · cases h
  · cases h
    simp only [missing, blockSize, List.length_append, List.length_singleton] at *
    omega

/-- The section with all of its padding. -/
def finish (p : Padded) : Bytes :=
  match _more : p.step? with
  | none => p.bytes
  | some q => q.finish
termination_by p.missing
decreasing_by exact Nat.lt_of_succ_le (Nat.le_of_eq (missing_of_step? _more).symm)

end Padded

/-- The section with the bytes 1, 2, … behind it, up to the next whole number of blocks. -/
def pad (bare : Bytes) : Bytes := Padded.finish { bytes := bare, next := 1 }

/-- The section without its padding. -/
def encodeBare (s : PrivateSection) (check : UInt32) : Except WireError Bytes := do
  let key ← s.privateKey.encode
  return Wire.putWord check ++ Wire.putWord check ++ key ++ (← Wire.putText s.comment)

def encode (s : PrivateSection) (check : UInt32) : Except WireError Bytes := do
  return pad (← s.encodeBare check)

end PrivateSection

namespace Container

def magic : Bytes := "openssh-key-v1".toUTF8.toList ++ [0]

def readMagic : Reader KeyError Unit := do
  let front ← (Wire.take magic.length).mapError .ofWire
  if front ≠ magic then Reader.fail .invalidMagic

/-- The first of `n` public keys; the others may be anything. -/
def readPublicKeys (n : Nat) : Reader KeyError PublicKey := do
  if n = 0 then Reader.fail .noKeysPresent
  else
    let blob ← Wire.string.mapError .ofWire
    match PublicKey.ofBlob blob with
    | .error e => Reader.fail e
    | .ok key =>
      let _ ← (Wire.string.times (n - 1)).mapError KeyError.ofWire
      return key

def read : Reader KeyError Container := do
  readMagic
  let cipher ← Wire.text.mapError .ofWire
  let kdf ← Wire.text.mapError .ofWire
  let kdfOptions ← Wire.string.mapError .ofWire
  let n ← Wire.word.mapError .ofWire
  let publicKey ← readPublicKeys n.toNat
  let body ← Wire.string.mapError .ofWire
  return { cipher, kdf, kdfOptions, publicKey, body }

/-- Reads a container off the front of a byte string. -/
def decode (b : Bytes) : Except KeyError Container := (read b).map (·.1)

def encode (c : Container) : Except WireError Bytes := do
  let cipher ← Wire.putText c.cipher
  let kdf ← Wire.putText c.kdf
  let options ← Wire.putString c.kdfOptions
  let publicKey ← c.publicKey.encodeCounted
  return magic ++ cipher ++ kdf ++ options ++ Wire.putWord 1 ++ publicKey ++
    (← Wire.putString c.body)

/-- The container of an unencrypted section. -/
def plain (publicKey : PublicKey) (body : Bytes) : Container :=
  { cipher := noneName, kdf := noneName, kdfOptions := [], publicKey, body }

/-- The container of a key that is not encrypted, with its section written out. -/
def encodePlain (publicKey : PublicKey) (s : PrivateSection) (check : UInt32) :
    Except WireError Bytes := do
  (plain publicKey (← s.encode check)).encode

/-- The private section as plain text. -/
def decrypt (cipher kdf : String) (kdfOptions body : Bytes) (passphrase : String) :
    Except KeyError Bytes := do
  let some kind := CipherKind.ofName? cipher | throw (.unknownCipher cipher)
  if kdf ≠ bcryptName then throw (.unknownKdf kdf)
  if passphrase.isEmpty then throw .passphraseRequired
  let options ← KdfOptions.ofBytes kdfOptions
  let derived ← Bcrypt.derive (Utf8.encode passphrase) options.salt options.rounds.toNat
    (kind.keySize + blockSize)
  let decryptor ← Decryptor.ofKey kind (derived.take kind.keySize) (derived.drop kind.keySize)
  decryptor.decrypt body

end Container

end SshKeyring
