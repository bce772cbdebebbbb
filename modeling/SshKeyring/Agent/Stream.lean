import SshKeyring.Agent.Error

/-! A stream to a peer, given by what its calls are going to do: the data, failures and silences
that reads will meet, how much each write will take, and which flushes will fail. What a list
does not say goes well: reads past its end find the end of the stream, writes take everything,
flushes work. -/

namespace SshKeyring

inductive ReadEvent
  | data (bytes : Bytes)
  | fail (fault : IoError)
  | silence
  deriving DecidableEq, Repr

inductive WriteEvent
  | accept (most : Nat)
  | fail (fault : IoError)
  deriving DecidableEq, Repr

structure Stream where
  reads : List ReadEvent := []
  writes : List WriteEvent := []
  flushes : List (Option IoError) := []
  /-- The bytes it has taken so far. -/
  taken : Bytes := []
  deriving DecidableEq, Repr

namespace Stream

/-- How a silence ends for a reader that does not wait for ever. -/
def noData : IoError := { kind := .wouldBlock, text := "no data yet" }

def endOfData : IoError := { kind := .unexpectedEof, text := "failed to fill whole buffer" }

/-- Reads until `n` bytes are there, behind those in the reversed list `done`. Interrupted reads
are repeated; what was read before any other failure is lost, and a silence lasts. -/
def collect : (n : Nat) → (done : List Bytes) → List ReadEvent → Except IoError Bytes × List ReadEvent
  | 0, done, events => (.ok done.reverse.flatten, events)
  | _ + 1, _, [] => (.error endOfData, [])
  | _ + 1, _, .silence :: events => (.error noData, .silence :: events)
  | n + 1, done, .fail e :: events =>
    if e.kind = .interrupted then collect (n + 1) done events else (.error e, events)
  | n + 1, done, .data b :: events =>
    if b.length ≤ n + 1 then collect (n + 1 - b.length) (b :: done) events
    else (.ok (b.take (n + 1) :: done).reverse.flatten, .data (b.drop (n + 1)) :: events)

def readExact (n : Nat) : Steps Stream IoError Bytes := do
  let s ← get
  let (result, reads) := collect n [] s.reads
  set { s with reads }
  Steps.ofExcept result

/-- How a writer goes about its bytes: whether it repeats interrupted writes, and what it makes
of a write that takes nothing. -/
structure WritePolicy where
  repeats : Bool
  nothingTaken : IoError

/-- The outcome of writing until all bytes are taken or a write fails: the bytes taken by each
write in reverse, the bytes left, and the events left. -/
structure Written where
  fault : Option IoError
  taken : List Bytes
  left : Bytes
  writes : List WriteEvent

def write (policy : WritePolicy) : (taken : List Bytes) → Bytes → List WriteEvent → Written
  | taken, [], events => { fault := none, taken, left := [], writes := events }
  | taken, b, [] => { fault := none, taken := b :: taken, left := [], writes := [] }
  | taken, b, .fail e :: events =>
    if policy.repeats ∧ e.kind = .interrupted then write policy taken b events
    else { fault := some e, taken, left := b, writes := events }
  | taken, b, .accept most :: events =>
    if most = 0 then { fault := some policy.nothingTaken, taken, left := b, writes := events }
    else write policy (b.take most :: taken) (b.drop most) events

/-- Writes the bytes and says what is left of them and why. -/
def send (policy : WritePolicy) (b : Bytes) (s : Stream) : Written × Stream :=
  let w := write policy [] b s.writes
  (w, { s with writes := w.writes, taken := s.taken ++ w.taken.reverse.flatten })

def flush : Steps Stream IoError Unit := do
  let s ← get
  match s.flushes with
  | [] => return
  | none :: rest => set { s with flushes := rest }
  | some e :: rest =>
    set { s with flushes := rest }
    throw e

end Stream

end SshKeyring
