import SshKeyring.Key.Container
import SshKeyring.Key.Legacy
import SshKeyring.Steps

/-! A key as it was read from a file: locked as long as its private half is encrypted, unlocked
once that is known. A failed attempt to unlock it leaves it as it was. -/

namespace SshKeyring

inductive KeyFormat
  | openSsh
  | legacy (kind : Legacy.Kind)
  deriving DecidableEq, Repr

namespace KeyFormat

def label : KeyFormat → String
  | .openSsh => "OPENSSH PRIVATE KEY"
  | .legacy .rsa => "RSA PRIVATE KEY"
  | .legacy .dsa => "DSA PRIVATE KEY"

def ofLabel? (label : String) : Option KeyFormat :=
  [openSsh, legacy .rsa, legacy .dsa].find? (·.label = label)

end KeyFormat

/-- The private half. A locked one keeps its ciphertext, and in a traditional file the initial
vector. -/
inductive Secret
  | locked (ciphertext iv : Bytes)
  | unlocked (key : PrivateKey)
  deriving DecidableEq, Repr

structure Key where
  type : KeyType
  format : KeyFormat
  /-- Unknown while it is locked up together with the private half. -/
  publicHalf : Option PublicKey
  comment : String
  cipher : String
  kdf : String
  kdfOptions : Bytes
  secret : Secret
  deriving DecidableEq, Repr

namespace Key

def md5Name : String := "md5"

/-- The key of a container, locked unless the cipher's name is exactly `none`. -/
def ofContainer (c : Container) : Except KeyError Key := do
  let key : Key :=
    { type := c.publicKey.type, format := .openSsh, publicHalf := some c.publicKey, comment := "",
      cipher := c.cipher, kdf := c.kdf, kdfOptions := c.kdfOptions, secret := .locked c.body [] }
  if c.cipher = noneName then
    let s ← PrivateSection.decode c.publicKey.type c.body
    return { key with comment := s.comment, secret := .unlocked s.privateKey }
  else return key

def ofLegacy (kind : Legacy.Kind) (p : PemBlock) : Except KeyError Key := do
  let key : Key :=
    { type := kind.keyType, format := .legacy kind, publicHalf := none, comment := "",
      cipher := noneName, kdf := noneName, kdfOptions := [], secret := .locked p.data [] }
  if Legacy.isEncrypted p then
    let (cipher, iv) ← Legacy.encryption p
    return { key with cipher, kdf := md5Name, secret := .locked p.data iv }
  else
    let privateKey ← Legacy.decode kind p.data
    let publicKey ← privateKey.publicKey
    return { key with publicHalf := some publicKey, secret := .unlocked privateKey }

def ofPem (p : PemBlock) : Except KeyError Key :=
  match KeyFormat.ofLabel? p.label with
  | none => .error (.unsupportedContainer p.label)
  | some .openSsh => do ofContainer (← Container.decode p.data)
  | some (.legacy kind) => ofLegacy kind p

def parse (text : Bytes) : Except KeyError Key := do ofPem (← PemBlock.parse text)

def ofPrivate (k : PrivateKey) (comment : String) : Except KeyError Key := do
  let publicKey ← k.publicKey
  return {
    type := k.type, format := .openSsh, publicHalf := some publicKey, comment,
    cipher := noneName, kdf := noneName, kdfOptions := [], secret := .unlocked k }

/-- The private half and the comment of a locked key. What does not decode after it has been
decrypted from a traditional file is put down to the passphrase. -/
def openSecret (k : Key) (ciphertext iv : Bytes) (passphrase : String) :
    Except KeyError PrivateSection := do
  match k.format with
  | .openSsh =>
    let text ← Container.decrypt k.cipher k.kdf k.kdfOptions ciphertext passphrase
    PrivateSection.decode k.type text
  | .legacy kind =>
    let text ← Legacy.decrypt k.cipher iv ciphertext passphrase
    match Legacy.decode kind text with
    | .ok privateKey => return { privateKey, comment := "" }
    | .error _ => throw .wrongPassphraseOrCorruptKey

/-- Writes what a private section holds into a key, each field as soon as its value is there. A
public half that is missing is worked out first; one that is known stays, and so does the comment if
the section has none. -/
def storeSection (s : PrivateSection) : Steps Key KeyError Unit := do
  if (← get).publicHalf.isNone then
    let publicKey ← Steps.ofExcept s.privateKey.publicKey
    modify fun k => { k with publicHalf := some publicKey }
  if !s.comment.isEmpty then
    modify fun k => { k with comment := s.comment }
  modify fun k => { k with secret := .unlocked s.privateKey }

/-- Unlocks a key where it stands. Nothing happens to one that is unlocked. -/
def unlockInPlace (passphrase : String) : Steps Key KeyError Unit := do
  let k ← get
  match k.secret with
  | .unlocked _ => pure ()
  | .locked ciphertext iv =>
    storeSection (← Steps.ofExcept (k.openSecret ciphertext iv passphrase))

/-- Tries a passphrase on a key that stays in use: the key afterwards, and whether it worked. -/
def tryUnlock (k : Key) (passphrase : String) : Key × Except KeyError Unit :=
  ((unlockInPlace passphrase).perform k).swap

/-- The key that a passphrase has unlocked. -/
def unlock (k : Key) (passphrase : String) : Except KeyError Key :=
  let (after, result) := k.tryUnlock passphrase
  result.map fun _ => after

def isLocked (k : Key) : Bool :=
  match k.secret with
  | .locked .. => true
  | .unlocked _ => false

/-- Whether the file was encrypted at all. -/
def isEncrypted (k : Key) : Bool := k.cipher ≠ noneName

def publicKey (k : Key) : Except KeyError PublicKey :=
  match k.publicHalf with
  | some known => .ok known
  | none => .error .locked

def privateKey (k : Key) : Except KeyError PrivateKey :=
  match k.secret with
  | .unlocked known => .ok known
  | .locked .. => .error .locked

def setComment (k : Key) (comment : String) : Key := { k with comment }

def fingerprint (k : Key) (a : HashAlgorithm) : Except KeyError String := do
  (← k.publicKey).fingerprint a

def publicLine (k : Key) : Except KeyError String := do (← k.publicKey).line k.comment

/-- The size in bits, zero while it is unknown. -/
def bits (k : Key) : Nat :=
  match k.publicHalf with
  | some known => known.bits
  | none => 0

def publicBlob (k : Key) : Except KeyError Bytes := do (← k.publicKey).blob

/-- The private half and the comment, as an agent is sent them. -/
def privateBlob (k : Key) : Except KeyError Bytes := do
  let key ← (← k.privateKey).bytes
  return key ++ (← (Wire.putText k.comment).mapError .ofWire)

def lineWidth : Nat := 70

/-- The block of an unencrypted container that holds the key. -/
def toBlock (k : Key) (check : UInt32) : Except KeyError PemBlock := do
  let publicKey ← k.publicKey
  let privateKey ← k.privateKey
  let encoded := Container.encodePlain publicKey { privateKey, comment := k.comment } check
  return { label := KeyFormat.openSsh.label, data := ← encoded.mapError .ofWire }

/-- The unencrypted PEM text of the key; `check` goes into the private section twice. -/
def toPem (k : Key) (check : UInt32) : Except KeyError String := do
  return (← k.toBlock check).encode lineWidth

end Key

end SshKeyring
