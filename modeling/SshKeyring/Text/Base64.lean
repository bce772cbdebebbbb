import SshKeyring.Bytes

/-! Base64 with the alphabet `A-Z a-z 0-9 + /`. Three bytes make four symbols; a last group
of one or two bytes makes two or three, and is filled up with `=` in the padded form. Decoding
takes the padded form only, with every discarded bit zero, so each byte string has one
spelling. -/

namespace SshKeyring.Base64

/-- Faults of an encoded text, with the offset of the byte at fault. -/
inductive Error
  | invalidByte (offset : Nat) (byte : UInt8)
  | invalidLength (length : Nat)
  | invalidLastSymbol (offset : Nat) (byte : UInt8)
  | invalidPadding
  deriving DecidableEq, Repr

def Error.message : Error → String
  | .invalidByte i b => s!"Invalid symbol {b}, offset {i}."
  | .invalidLength n => s!"Invalid input length: {n}"
  | .invalidLastSymbol i b => s!"Invalid last symbol {b}, offset {i}."
  | .invalidPadding => "Invalid padding"

def pad : Char := '='

/-- The symbol of a value below 64. -/
def symbol (v : Nat) : Char :=
  if v < 26 then Char.ofNat (65 + v)
  else if v < 52 then Char.ofNat (71 + v)
  else if v < 62 then Char.ofNat (v - 4)
  else if v = 62 then '+'
  else '/'

/-- The value of a symbol, given as its ASCII code. -/
def value? (b : UInt8) : Option Nat :=
  let n := b.toNat
  if 65 ≤ n ∧ n ≤ 90 then some (n - 65)
  else if 97 ≤ n ∧ n ≤ 122 then some (n - 71)
  else if 48 ≤ n ∧ n ≤ 57 then some (n + 4)
  else if n = 43 then some 62
  else if n = 47 then some 63
  else none

def encodeGroup : Bytes → List Char
  | [a] => [symbol (a.toNat / 4), symbol (a.toNat % 4 * 16)]
  | [a, b] =>
    [symbol (a.toNat / 4), symbol (a.toNat % 4 * 16 + b.toNat / 16), symbol (b.toNat % 16 * 4)]
  | [a, b, c] =>
    [symbol (a.toNat / 4), symbol (a.toNat % 4 * 16 + b.toNat / 16),
      symbol (b.toNat % 16 * 4 + c.toNat / 64), symbol (c.toNat % 64)]
  | _ => []

def encodeUnpadded (b : Bytes) : List Char := (pieces 3 b).flatMap encodeGroup

def padding (n : Nat) : List Char := List.replicate ((3 - n % 3) % 3) pad

def encode (b : Bytes) : List Char := encodeUnpadded b ++ padding b.length

/-- The first byte outside the alphabet, counted from `start`. -/
def foreign? (start : Nat) (text : Bytes) : Option Error :=
  match text.findIdx? (fun b => (value? b).isNone) with
  | some i => (text[i]?).map (.invalidByte (start + i))
  | none => none

/-- Reads the last group from left to right: the values of its symbols, and where its padding
starts. Padding may not come before the third place, and only padding may follow it. -/
def readLast (start : Nat) : (place : Nat) → (padAt : Option Nat) → List Nat → Bytes →
    Except Error (List Nat)
  | _, _, values, [] => .ok values.reverse
  | place, padAt, values, b :: rest =>
    if b = 61 then
      if place < 2 then .error (.invalidByte (start + place) b)
      else readLast start (place + 1) (padAt <|> some place) values rest
    else
      match padAt with
      | some p => .error (.invalidByte (start + p) 61)
      | none =>
        match value? b with
        | some v => readLast start (place + 1) none (v :: values) rest
        | none => .error (.invalidByte (start + place) b)

/-- The bytes of a full group of four values. -/
def decodeQuad : List Nat → Bytes
  | [a, b, c, d] =>
    [UInt8.ofNat (a * 4 + b / 16), UInt8.ofNat (b % 16 * 16 + c / 4), UInt8.ofNat (c % 4 * 64 + d)]
  | _ => []

/-- The last group, which begins at `start`. -/
def decodeLast (start : Nat) (text : Bytes) : Except Error Bytes := do
  let values ← readLast start 0 none [] text
  let bad (byte : Option UInt8) : Error :=
    .invalidLastSymbol (start + values.length - 1) (byte.getD 0)
  if values.length < 2 then .error (.invalidLength (start + values.length))
  else if text.length ≠ 4 then .error .invalidPadding
  else
    match values with
    | [a, b] =>
      if b % 16 = 0 then .ok [UInt8.ofNat (a * 4 + b / 16)] else .error (bad text[1]?)
    | [a, b, c] =>
      if c % 4 = 0 then .ok [UInt8.ofNat (a * 4 + b / 16), UInt8.ofNat (b % 16 * 16 + c / 4)]
      else .error (bad text[2]?)
    | quad => .ok (decodeQuad quad)

/-- A text one byte longer than a whole number of groups, ending in a foreign byte other than
padding, is blamed on that byte before anything else. -/
def strayEnd? (text : Bytes) : Option Error :=
  match text.getLast? with
  | some b =>
    if text.length % 4 = 1 ∧ b ≠ 61 ∧ value? b = none then some (.invalidByte (text.length - 1) b)
    else none
  | none => none

def decode (text : Bytes) : Except Error Bytes := do
  if text = [] then return []
  if let some e := strayEnd? text then throw e
  let start := (text.length - 1) / 4 * 4
  let front := text.take start
  if let some e := foreign? 0 front then throw e
  let last ← decodeLast start (text.drop start)
  return (pieces 4 (front.filterMap value?)).flatMap decodeQuad ++ last

end SshKeyring.Base64
