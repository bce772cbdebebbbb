import SshKeyring.Agent.Stream
import SshKeyring.Agent.Frame

/-! Integers and strings over a stream. Reads wait for all their bytes; writes are put together
and go out with the next flush, which is the only one to try them. -/

namespace SshKeyring

/-- What a cursor was doing when its stream failed. -/
inductive CursorTask
  | readingU8
  | readingU16
  | readingU32
  | readingBytes
  | writing
  deriving DecidableEq, Repr

def CursorTask.description : CursorTask → String
  | .readingU8 => "reading u8"
  | .readingU16 => "reading u16"
  | .readingU32 => "reading u32"
  | .readingBytes => "reading bytes"
  | .writing => "writing"

inductive CursorError
  | truncated (task : CursorTask)
  | timedOut (task : CursorTask)
  | tooLong (length : Nat)
  | io (fault : IoError)
  deriving DecidableEq, Repr

namespace CursorError

def message : CursorError → String
  | .truncated t => s!"Unexpected EOF: {t.description}"
  | .timedOut t => s!"Timed out while {t.description}"
  | .tooLong n => s!"Packed string too long ({n} bytes)"
  | .io e => s!"I/O error: {e.text}"

/-- Whether reading gave up before all its bytes were there. -/
def isTruncated : CursorError → Bool
  | .truncated _ => true
  | .timedOut _ => true
  | _ => false

def whileReading (task : CursorTask) (e : IoError) : CursorError :=
  match e.kind with
  | .unexpectedEof => .truncated task
  | .wouldBlock => .timedOut task
  | .timedOut => .timedOut task
  | _ => .io e

def whileWriting (e : IoError) : CursorError :=
  match e.kind with
  | .wouldBlock => .timedOut .writing
  | .timedOut => .timedOut .writing
  | _ => .io e

def toAgentError : CursorError → AgentError
  | .timedOut _ => .timeout
  | .io e => .io e
  | .truncated _ => .protocol .unexpectedResponse
  | .tooLong _ => .protocol .unexpectedResponse

end CursorError

structure Cursor where
  stream : Stream := {}
  /-- Bytes written since the last flush. -/
  pending : Bytes := []
  deriving DecidableEq, Repr

namespace Cursor

abbrev Task (α : Type) : Type := Steps Cursor CursorError α

def read (task : CursorTask) (n : Nat) : Task Bytes := do
  let c ← get
  let (result, stream) := (Stream.readExact n).perform c.stream
  set { c with stream }
  Steps.ofExcept (result.mapError (.whileReading task))

def readU8 : Task Nat := do return Bytes.toNat (← read .readingU8 1)

def readU16 : Task Nat := do return Bytes.toNat (← read .readingU16 2)

def readU32 : Task Nat := do return Bytes.toNat (← read .readingU32 4)

def readBytes (n : Nat) : Task Bytes := read .readingBytes n

def readString : Task Bytes := do
  let n ← readU32
  if n > Frame.maxLength then throw (.tooLong n)
  readBytes n

def writeBytes (b : Bytes) : Task Unit := modify fun c => { c with pending := c.pending ++ b }

def writeU8 (n : Nat) : Task Unit := writeBytes (Bytes.ofNat 1 n)

def writeU16 (n : Nat) : Task Unit := writeBytes (Bytes.ofNat 2 n)

def writeU32 (n : Nat) : Task Unit := writeBytes (Bytes.ofNat 4 n)

def writeString (b : Bytes) : Task Unit := do
  if b.length ≥ Wire.countLimit then throw (.tooLong b.length)
  writeU32 b.length
  writeBytes b

def policy : Stream.WritePolicy where
  repeats := true
  nothingTaken := { kind := .writeZero, text := "failed to write whole buffer" }

/-- Sends what is pending and flushes the stream. Nothing is pending afterwards, even if only
part of it was sent. -/
def flush : Task Unit := do
  let c ← get
  let (written, stream) := c.stream.send policy c.pending
  set ({ stream, pending := [] } : Cursor)
  if let some e := written.fault then throw (.whileWriting e)
  let (result, stream) := Stream.flush.perform stream
  set ({ stream, pending := [] } : Cursor)
  Steps.ofExcept (result.mapError .whileWriting)

end Cursor

end SshKeyring
