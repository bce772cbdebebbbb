import SshKeyring.Agent.Stream
import SshKeyring.Agent.Inbox

/-! A client that keeps what it could not send yet and what it has read too far. It reads as much
at a time as its inbox has room for. A failure to receive is followed by one report of a closed
connection before reading goes on. -/

namespace SshKeyring

structure BufferedClient where
  stream : Stream := {}
  inbox : Inbox := {}
  /-- Bytes to be written before those of the next frame. -/
  outbox : Bytes := []
  /-- The last read found the end of the stream. -/
  ended : Bool := false
  /-- The inbox may hold a complete frame. -/
  readable : Bool := false
  /-- The last attempt to receive failed. -/
  failed : Bool := false
  deriving DecidableEq, Repr

namespace BufferedClient

abbrev Call (α : Type) : Type := Steps BufferedClient AgentError α

/-- An outbox of so many bytes or more is emptied before another frame goes into it. -/
def outboxLimit : Nat := 8192

def policy : Stream.WritePolicy where
  repeats := false
  nothingTaken := { kind := .writeZero, text := "failed to write frame to transport" }

def bytesRemaining : IoError := { kind := .other, text := "bytes remaining on stream" }

/-- Writes out the outbox and flushes the stream. What is not written stays. -/
def flush : Call Unit := do
  let c ← get
  let (written, stream) := c.stream.send policy c.outbox
  set { c with stream, outbox := written.left }
  if let some e := written.fault then throw (.io e)
  let (result, stream) := Stream.flush.perform stream
  modify fun c => { c with stream }
  Steps.ofExcept (result.mapError .io)

def send (r : Request) : Call Unit := do
  if (← get).outbox.length ≥ outboxLimit then flush
  let frame ← Steps.ofExcept (Frame.encode r)
  modify fun c => { c with outbox := c.outbox ++ frame }
  flush

/-- The next message of the inbox. A message that does not decode is a failure. -/
def decode : Call (Option Response) := do
  let c ← get
  let (result, inbox) := Inbox.decode.perform c.inbox
  match result with
  | .ok r =>
    set { c with inbox }
    return r
  | .error e =>
    set { c with inbox, failed := true }
    throw e

/-- The next message of the inbox once the stream has ended: an incomplete one is a failure. -/
def decodeAtEnd : Call (Option Response) := do
  match ← decode with
  | some r => return some r
  | none =>
    if (← get).inbox.bytes.isEmpty then
      modify fun c => { c with readable := false }
      return none
    else
      modify fun c => { c with failed := true }
      throw (.io bytesRemaining)

/-- Reads data, of which `events` follow, until the inbox gives a message or all of it is read.
Every read takes at least one byte, so `fuel` need not exceed their number. -/
def readData (events : List ReadEvent) : (fuel : Nat) → Bytes → Call (Option Response)
  | 0, _ => return none
  | fuel + 1, b => do
    if b = [] then return none
    let c ← get
    let inbox := c.inbox.reserve 1
    let later := b.drop inbox.room
    set { c with
      stream := { c.stream with reads := .data later :: events }
      inbox := inbox.append (b.take inbox.room)
      ended := false
      readable := true }
    match ← decode with
    | some r => return some r
    | none =>
      modify fun c => { c with readable := false }
      readData events fuel later

/-- Reads until the inbox gives a message, the stream ends or reading fails. -/
def readOn : List ReadEvent → Call (Option Response)
  | [] => do
    let c ← get
    let stream := { c.stream with reads := [] }
    if c.ended then
      set { c with stream }
      return none
    else
      set { c with stream, ended := true, readable := true }
      decodeAtEnd
  | .silence :: events => do
    modify fun c => { c with stream := { c.stream with reads := .silence :: events } }
    throw .timeout
  | .fail e :: events => do
    modify fun c => { c with stream := { c.stream with reads := events }, failed := true }
    throw (.io e)
  | .data b :: events => do
    match ← readData events b.length b with
    | some r => return some r
    | none => readOn events

/-- The next message, or nothing where the connection counts as closed. -/
def next : Call (Option Response) := do
  let c ← get
  if c.failed then
    set { c with failed := false, readable := false }
    return none
  else if c.readable then
    if c.ended then decodeAtEnd
    else
      match ← decode with
      | some r => return some r
      | none =>
        modify fun c => { c with readable := false }
        readOn c.stream.reads
  else readOn c.stream.reads

def exchange (r : Request) : Call Response := do
  send r
  match ← next with
  | some answer => return answer
  | none => throw (.protocol .disconnected)

def request (r : Request) : Call Outcome := do Steps.ofExcept ((← exchange r).outcome r)

end BufferedClient

end SshKeyring
