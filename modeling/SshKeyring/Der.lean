import SshKeyring.Key.Error

/-! A DER sequence of integers, the one structure that traditional key files hold. Lengths are
definite, in short form or in up to four bytes, and need not be minimal. -/

namespace SshKeyring.Der

def integerTag : UInt8 := 0x02

def sequenceTag : UInt8 := 0x30

def byte : Reader DerFault UInt8
  | b :: rest => .ok (b, rest)
  | [] => .error .endOfData

def length : Reader DerFault Nat := do
  let first ← byte
  if first < 0x80 then pure first.toNat
  else
    let octets := first.toNat - 0x80
    if octets = 0 then Reader.fail .indefiniteLength
    else if octets > 4 then Reader.fail .lengthTooLarge
    else return Bytes.toNat (← byte.times octets)

def contents (n : Nat) : Reader DerFault Bytes := fun input =>
  let front := input.take n
  if front.length = n then .ok (front, input.drop n) else .error .lengthExceedsInput

/-- The contents of the next element, which has to have the tag. -/
def element (tag : UInt8) : Reader DerFault Bytes := do
  if (← byte) = tag then contents (← length) else Reader.fail .unexpectedTag

/-- Reads integers until `room` of them are there or nothing is left. -/
def integers : (room : Nat) → Bytes → Except DerFault (List Bytes)
  | 0, _ => .ok []
  | _ + 1, [] => .ok []
  | room + 1, input =>
    match element integerTag input with
    | .error e => .error e
    | .ok ([], _) => .error .emptyInteger
    | .ok (body, rest) => (integers room rest).map (body :: ·)

/-- The bodies of the first integers of a sequence, at least `least` and at most `most`. What
follows them in the sequence, and what follows the sequence, is not looked at. -/
def integersOf (input : Bytes) (least most : Nat) : Except DerFault (List Bytes) := do
  let (inside, _) ← element sequenceTag input
  let found ← integers most inside
  if found.length < least then throw .tooFewIntegers
  return found

end SshKeyring.Der
