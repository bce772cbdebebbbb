import SshKeyring.Reader
import SshKeyring.Text.Utf8

/-! The data types of the wire: bytes, 32 bit words with the most significant byte first, and
strings, which are a word that counts the bytes and then those bytes. A reader takes strings
of at most `maxLength` bytes; a writer only needs the count to fit its word. -/

namespace SshKeyring

inductive WireError
  | length
  | overflow
  | characterEncoding
  | trailingData (remaining : Nat)
  deriving DecidableEq, Repr

def WireError.message : WireError → String
  | .length => "length invalid"
  | .overflow => "internal overflow error"
  | .characterEncoding => "character encoding invalid"
  | .trailingData n => s!"unexpected trailing data at end of message ({n} bytes)"

namespace Wire

def maxLength : Nat := 0xFFFFF

def byte : Reader WireError UInt8
  | b :: rest => .ok (b, rest)
  | [] => .error .length

def word : Reader WireError UInt32
  | a :: b :: c :: d :: rest => .ok (UInt32.ofNat (Bytes.toNat [a, b, c, d]), rest)
  | _ => .error .length

def take (n : Nat) : Reader WireError Bytes := fun input =>
  let front := input.take n
  if front.length = n then .ok (front, input.drop n) else .error .length

/-- The count of the bytes that follow. It is refused for its size before those are looked
at. -/
def count : Reader WireError Nat := do
  let n ← word
  if n.toNat ≤ maxLength then pure n.toNat else Reader.fail .overflow

def string : Reader WireError Bytes := do
  let n ← count
  take n

def text : Reader WireError String := do
  match Utf8.decode? (← string) with
  | some s => pure s
  | none => Reader.fail .characterEncoding

/-- Runs a reader inside the next string. Bytes of that string which it leaves are read next,
in front of those after the string. -/
def within {ε α : Type} (fault : WireError → ε) (inner : Reader ε α) : Reader ε α := do
  let n ← count.mapError fault
  fun input =>
    match inner (input.take n) with
    | .ok (a, left) => .ok (a, left ++ input.drop n)
    | .error e => .error e

/-- What a count cannot reach. -/
def countLimit : Nat := 0x100000000

def putWord (w : UInt32) : Bytes := Bytes.ofNat 4 w.toNat

def putCount (n : Nat) : Except WireError Bytes :=
  if n < countLimit then .ok (putWord (UInt32.ofNat n)) else .error .overflow

def putString (b : Bytes) : Except WireError Bytes := return (← putCount b.length) ++ b

def putStrings (parts : List Bytes) : Except WireError Bytes :=
  return (← parts.mapM putString).flatten

def putText (s : String) : Except WireError Bytes := putString (Utf8.encode s)

/-- The bytes a string takes on the wire. -/
def stringSize (b : Bytes) : Nat := 4 + b.length

def totalSize {α : Type} (size : α → Nat) (items : List α) : Nat :=
  items.foldr (fun a n => size a + n) 0

def stringsSize (parts : List Bytes) : Nat := totalSize stringSize parts

/-- What the length of anything in memory cannot reach. -/
def sizeLimit : Nat := 0x10000000000000000

def checked (n : Nat) : Except WireError Nat := if n < sizeLimit then .ok n else .error .length

/-- The sum of two lengths, unless it is too large for one. -/
def checkedSum (m n : Nat) : Except WireError Nat := checked (m + n)

def checkedStringSize (b : Bytes) : Except WireError Nat := checkedSum 4 b.length

def checkedTextSize (s : String) : Except WireError Nat := checkedStringSize (Utf8.encode s)

/-- The sizes of the items on top of `start`, added one after the other. -/
def checkedTotal {α : Type} (size : α → Except WireError Nat) (start : Nat) (items : List α) :
    Except WireError Nat :=
  items.foldlM (fun n a => do checkedSum n (← size a)) start

end Wire

end SshKeyring
