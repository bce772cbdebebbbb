import SshKeyring.Bytes

/-! Hexadecimal digits, two to a byte. -/

namespace SshKeyring.Hex

def digit (v : Nat) : Char := if v < 10 then Char.ofNat (48 + v) else Char.ofNat (87 + v)

def encodeByte (b : UInt8) : List Char := [digit (b.toNat / 16), digit (b.toNat % 16)]

/-- Lower case digits, nothing in between. -/
def encode (b : Bytes) : List Char := b.flatMap encodeByte

/-- Lower case digits with a colon between two bytes. -/
def encodeColons (b : Bytes) : List Char := [':'].intercalate (b.map encodeByte)

/-- The value of a digit in either case. -/
def value? (c : Char) : Option Nat :=
  let n := c.toNat
  if 48 ≤ n ∧ n ≤ 57 then some (n - 48)
  else if 65 ≤ n ∧ n ≤ 70 then some (n - 55)
  else if 97 ≤ n ∧ n ≤ 102 then some (n - 87)
  else none

/-- One more digit of a number, given as its ASCII code, as long as the number fits into a byte. -/
def addDigit? (n : Nat) (code : UInt8) : Option Nat := do
  let n := 16 * n + (← value? (Char.ofUInt8 code))
  if n < 256 then some n else none

/-- A number without the plus sign that it may begin with. -/
def unsigned : Bytes → Bytes
  | 43 :: digits => digits
  | digits => digits

/-- The number that a text spells with at least one digit, if it fits into a byte. -/
def number? (text : Bytes) : Option UInt8 :=
  match unsigned text with
  | [] => none
  | digits => (digits.foldlM addDigit? 0).map UInt8.ofNat

/-- The encoding of a text in pairs of bytes, if it is ASCII and there is no odd one left over. -/
def pairs? (text : List Char) : Option (List Bytes) :=
  let bytes := text.flatMap String.utf8EncodeChar
  if bytes.length % 2 = 0 ∧ bytes.all (· < 0x80) then some (pieces 2 bytes) else none

/-- A byte for each pair. -/
def decodePairs? (text : List Char) : Option Bytes := do (← pairs? text).mapM number?

end SshKeyring.Hex
