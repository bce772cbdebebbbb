import SshKeyring.Bytes

/-! Text as UTF-8. Decoding goes byte by byte: a sequence that breaks off, or that could
only spell a surrogate, an overlong form or a value past the last scalar, ends as one broken
piece, and the byte that broke it starts afresh. -/

namespace SshKeyring.Utf8

def encode (s : String) : Bytes := s.toList.flatMap String.utf8EncodeChar

/-- What one maximal run of bytes stands for. -/
inductive Piece
  | scalar (c : Char)
  | broken
  deriving DecidableEq, Repr

/-- The decoder between two bytes. Inside a sequence, `more` further bytes follow the next
one, which has to lie between `low` and `high`. -/
inductive State
  | start
  | inside (value more : Nat) (low high : UInt8)
  deriving DecidableEq, Repr

/-- The decoder's state and the pieces it has made, the latest first. -/
abbrev Progress := State × List Piece

/-- Takes the first byte of a sequence. The bounds on the second byte keep out overlong
forms, surrogates and values past U+10FFFF. -/
def lead (done : List Piece) (b : UInt8) : Progress :=
  if b < 0x80 then (.start, .scalar (Char.ofNat b.toNat) :: done)
  else if b < 0xC2 then (.start, .broken :: done)
  else if b < 0xE0 then (.inside (b.toNat - 0xC0) 0 0x80 0xBF, done)
  else if b < 0xF0 then
    (.inside (b.toNat - 0xE0) 1 (if b = 0xE0 then 0xA0 else 0x80) (if b = 0xED then 0x9F else 0xBF),
      done)
  else if b < 0xF5 then
    (.inside (b.toNat - 0xF0) 2 (if b = 0xF0 then 0x90 else 0x80) (if b = 0xF4 then 0x8F else 0xBF),
      done)
  else (.start, .broken :: done)

def step : Progress → UInt8 → Progress
  | (.start, done), b => lead done b
  | (.inside value more low high, done), b =>
    if low ≤ b ∧ b ≤ high then
      let value := 64 * value + b.toNat % 64
      match more with
      | 0 => (.start, .scalar (Char.ofNat value) :: done)
      | more + 1 => (.inside value more 0x80 0xBF, done)
    else lead (.broken :: done) b

def finish : Progress → List Piece
  | (.start, done) => done.reverse
  | (.inside .., done) => (.broken :: done).reverse

def pieces (b : Bytes) : List Piece := finish (b.foldl step (.start, []))

def Piece.scalar? : Piece → Option Char
  | .scalar c => some c
  | .broken => none

/-- U+FFFD stands in for a broken piece. -/
def Piece.shown : Piece → Char
  | .scalar c => c
  | .broken => '\uFFFD'

/-- The text, if the bytes are valid UTF-8. -/
def decode? (b : Bytes) : Option String :=
  let all := pieces b
  let good := all.filterMap Piece.scalar?
  if good.length = all.length then some (String.ofList good) else none

/-- The text, with U+FFFD for each broken piece. -/
def decodeLossy (b : Bytes) : String := String.ofList ((pieces b).map Piece.shown)

end SshKeyring.Utf8
