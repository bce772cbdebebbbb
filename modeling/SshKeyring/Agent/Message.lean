import SshKeyring.Key.Private

/-! What a client asks an agent and what the agent answers. A message is a byte that tells its
kind and then the fields of that kind. The constraints of an added key have no count: they run
to the end of the message. -/

namespace SshKeyring

inductive MessageError
  | wire (fault : WireError)
  | key (fault : KeyError)
  | unsupportedCommand (command : UInt8)
  | unsupportedConstraint (constraint : UInt8)
  | unexpectedResponse
  | disconnected
  deriving DecidableEq, Repr

def MessageError.message : MessageError → String
  | .wire f => s!"SSH encoding error: {f.message}"
  | .key f => s!"SSH key error: {f.message}"
  | .unsupportedCommand c => s!"Command not supported ({c})"
  | .unsupportedConstraint c => s!"Constraint not supported ({c})"
  | .unexpectedResponse => "Unexpected response received"
  | .disconnected => "I/O Error: server disconnected"

/-- A restriction on the use of an added key. -/
inductive Constraint
  | lifetime (seconds : UInt32)
  | confirm
  deriving DecidableEq, Repr

namespace Constraint

def code : Constraint → UInt8
  | .lifetime _ => 1
  | .confirm => 2

def read : Reader MessageError Constraint := do
  match ← Wire.byte.mapError .wire with
  | 1 => return .lifetime (← Wire.word.mapError .wire)
  | 2 => return .confirm
  | c => Reader.fail (.unsupportedConstraint c)

/-- Reads the constraints up to the end, after those in the reversed list `done`. -/
def readAll (done : List Constraint) : Bytes → Except MessageError (List Constraint)
  | [] => .ok done.reverse
  | 1 :: a :: b :: c :: d :: rest =>
    readAll (.lifetime (UInt32.ofNat (Bytes.toNat [a, b, c, d])) :: done) rest
  | 1 :: _ => .error (.wire .length)
  | 2 :: rest => readAll (.confirm :: done) rest
  | c :: _ => .error (.unsupportedConstraint c)

def encode (c : Constraint) : Bytes :=
  match c with
  | .lifetime seconds => c.code :: Wire.putWord seconds
  | .confirm => [c.code]

def encodedLength : Constraint → Nat
  | .lifetime _ => 5
  | .confirm => 1

def checkedLength (c : Constraint) : Except WireError Nat := .ok c.encodedLength

theorem length_encode (c : Constraint) : c.encode.length = c.encodedLength := by
  cases c <;> simp [encode, encodedLength, Wire.putWord]

end Constraint

/-- A private key on its way to an agent. -/
structure Addition where
  privateKey : PrivateKey
  comment : String
  deriving DecidableEq, Repr

namespace Addition

def read : Reader MessageError Addition := do
  let privateKey ← PrivateKey.read.mapError .key
  let comment ← Wire.text.mapError .wire
  return { privateKey, comment }

def encode (a : Addition) : Except WireError Bytes := do
  let key ← a.privateKey.encode
  return key ++ (← Wire.putText a.comment)

def checkedLength (a : Addition) : Except WireError Nat := do
  let key ← a.privateKey.checkedLength
  Wire.checkedSum key (← Wire.checkedTextSize a.comment)

end Addition

structure ConstrainedAddition where
  addition : Addition
  constraints : List Constraint
  deriving DecidableEq, Repr

namespace ConstrainedAddition

def read : Reader MessageError ConstrainedAddition := do
  let addition ← Addition.read
  fun input => (Constraint.readAll [] input).map fun constraints => ({ addition, constraints }, [])

def encode (a : ConstrainedAddition) : Except WireError Bytes := do
  return (← a.addition.encode) ++ a.constraints.flatMap Constraint.encode

def checkedLength (a : ConstrainedAddition) : Except WireError Nat := do
  Wire.checkedTotal Constraint.checkedLength (← a.addition.checkedLength) a.constraints

end ConstrainedAddition

/-- A public key as the next string. -/
def readCountedKey : Reader MessageError PublicKey :=
  (Wire.within .ofWire PublicKey.read).mapError .key

/-- A key that an agent holds. -/
structure Identity where
  publicKey : PublicKey
  comment : String
  deriving DecidableEq, Repr

namespace Identity

def readComment : Reader MessageError String := do
  return Utf8.decodeLossy (← Wire.string.mapError .wire)

def read : Reader MessageError Identity := do
  let publicKey ← readCountedKey
  return { publicKey, comment := ← readComment }

/-- The next entry of a list, or nothing where its blob is not of a supported key. -/
def readEntry : Reader MessageError (Option Identity) := do
  let blob ← Wire.string.mapError .wire
  let comment ← readComment
  match PublicKey.ofBlob blob with
  | .ok publicKey => return some { publicKey, comment }
  | .error _ => return none

def readList : Reader MessageError (List Identity) := do
  let count ← Wire.word.mapError .wire
  return (← readEntry.times count.toNat).filterMap id

def encode (i : Identity) : Except WireError Bytes := do
  let key ← i.publicKey.encodeCounted
  return key ++ (← Wire.putText i.comment)

def checkedLength (i : Identity) : Except WireError Nat := do
  let key ← i.publicKey.checkedCountedLength
  Wire.checkedSum key (← Wire.checkedTextSize i.comment)

end Identity

inductive Request
  | requestIdentities
  | addIdentity (addition : Addition)
  | removeIdentity (publicKey : PublicKey)
  | removeAllIdentities
  | addConstrained (addition : ConstrainedAddition)
  deriving DecidableEq, Repr

namespace Request

def number : Request → UInt8
  | .requestIdentities => 11
  | .addIdentity _ => 17
  | .removeIdentity _ => 18
  | .removeAllIdentities => 19
  | .addConstrained _ => 25

def read : Reader MessageError Request := do
  match ← Wire.byte.mapError .wire with
  | 11 => return .requestIdentities
  | 17 => return .addIdentity (← Addition.read)
  | 18 => return .removeIdentity (← readCountedKey)
  | 19 => return .removeAllIdentities
  | 25 => return .addConstrained (← ConstrainedAddition.read)
  | c => Reader.fail (.unsupportedCommand c)

/-- The request at the front of a message; what follows it is not looked at. -/
def decode (b : Bytes) : Except MessageError Request := (read b).map (·.1)

/-- The fields behind the number. -/
def encodeFields : Request → Except WireError Bytes
  | .requestIdentities => .ok []
  | .addIdentity a => a.encode
  | .removeIdentity k => k.encodeCounted
  | .removeAllIdentities => .ok []
  | .addConstrained a => a.encode

def encode (r : Request) : Except WireError Bytes := return r.number :: (← r.encodeFields)

/-- The length of the fields behind the number. -/
def checkedFieldsLength : Request → Except WireError Nat
  | .requestIdentities => .ok 0
  | .addIdentity a => a.checkedLength
  | .removeIdentity k => k.checkedCountedLength
  | .removeAllIdentities => .ok 0
  | .addConstrained a => a.checkedLength

def checkedLength (r : Request) : Except WireError Nat := do
  Wire.checkedSum 1 (← r.checkedFieldsLength)

end Request

inductive Response
  | failure
  | success
  | identities (held : List Identity)
  deriving DecidableEq, Repr

namespace Response

def number : Response → UInt8
  | .failure => 5
  | .success => 6
  | .identities _ => 12

def read : Reader MessageError Response := do
  match ← Wire.byte.mapError .wire with
  | 5 => return .failure
  | 6 => return .success
  | 12 => return .identities (← Identity.readList)
  | c => Reader.fail (.unsupportedCommand c)

/-- The answer at the front of a message; what follows it is not looked at. -/
def decode (b : Bytes) : Except MessageError Response := (read b).map (·.1)

def encode (r : Response) : Except WireError Bytes := do
  match r with
  | .identities held =>
    let count ← Wire.putCount held.length
    return r.number :: (count ++ (← held.mapM Identity.encode).flatten)
  | _ => return [r.number]

def checkedLength : Response → Except WireError Nat
  | .failure => .ok 1
  | .success => .ok 1
  | .identities held => Wire.checkedTotal Identity.checkedLength 5 held

end Response

end SshKeyring
