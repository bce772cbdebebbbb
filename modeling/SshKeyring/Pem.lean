import SshKeyring.Key.Error
import SshKeyring.Text.Blank

/-! PEM blocks: a BEGIN row and an END row of one label around header rows and a Base64 body.
The text is Latin-1; its rows are what lies between carriage returns and line feeds, and empty
rows do not count. -/

namespace SshKeyring

structure PemBlock where
  label : String
  /-- Names and values in the order of their rows; of two with one name the later counts. -/
  headers : List (String × String) := []
  data : Bytes
  deriving DecidableEq, Repr

namespace PemBlock

abbrev Row := List Char

def beginMark : Row := "-----BEGIN ".toList

def endMark : Row := "-----END ".toList

def dashes : Row := "-----".toList

def isLineBreak (c : Char) : Bool := c = '\r' || c = '\n'

def rows (text : List Char) : List Row := (text.splitOnP isLineBreak).filter (· ≠ [])

def latin1 (b : Bytes) : List Char := b.map Char.ofUInt8

/-- The label of a boundary row: not empty and without a hyphen. -/
def label? (mark row : Row) : Option Row := do
  let label ← dashes.isSuffixOf? (← mark.isPrefixOf? row)
  if label = [] ∨ '-' ∈ label then none else some label

def isNameChar (c : Char) : Bool := c.isAlphanum || c = '-'

/-- The name and value of a header row. -/
def header? (row : Row) : Option (String × String) :=
  match row.takeWhile isNameChar, row.dropWhile isNameChar with
  | name@(_ :: _), ':' :: ' ' :: value@(_ :: _) => some (String.ofList name, String.ofList value)
  | _, _ => none

/-- The longest run of header rows at the front, and the rows after it. -/
def splitHeaders (headers : List (String × String)) : List Row → List (String × String) × List Row
  | [] => (headers.reverse, [])
  | row :: rest =>
    match header? row with
    | some h => splitHeaders (h :: headers) rest
    | none => (headers.reverse, row :: rest)

def decodeBody (body : List Row) : Except KeyError Bytes := do
  let text := (trim body.flatten).flatMap String.utf8EncodeChar
  let data ← (Base64.decode text).mapError .base64
  if data = [] then throw .emptyPayload
  return data

/-- Reads a block from its rows without the boundaries. -/
def ofRows (label : Row) (inner : List Row) : Except KeyError PemBlock := do
  let (headers, body) := splitHeaders [] inner
  return { label := String.ofList label, headers, data := ← decodeBody body }

def parse (text : Bytes) : Except KeyError PemBlock := do
  match rows (latin1 text) with
  | first :: second :: third :: rest =>
    let inner := (second :: third :: rest).dropLast
    let last := (third :: rest).getLastD third
    let some begins := label? beginMark first | throw (.malformedContainer .missingBegin)
    let some ends := label? endMark last | throw (.malformedContainer .missingEnd)
    if begins ≠ ends then throw (.malformedContainer .boundaryMismatch)
    ofRows begins inner
  | _ => throw (.malformedContainer .tooFewRows)

/-- The value that counts for a header. -/
def header (p : PemBlock) (name : String) : Option String :=
  (p.headers.reverse.find? (·.1 = name)).map (·.2)

/-- The block as text, its body in rows of `width` symbols but no fewer than four. Headers are
left out. -/
def encode (p : PemBlock) (width : Nat) : String :=
  let label := p.label.toList
  let body := pieces (max width 4) (Base64.encode p.data)
  let all := (beginMark ++ label ++ dashes) :: (body ++ [endMark ++ label ++ dashes])
  String.ofList (all.flatMap (· ++ ['\n']))

end PemBlock

end SshKeyring
