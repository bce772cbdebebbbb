import SshKeyring.Agent.BufferedClient
import SshKeyring.Agent.Client

/-! An agent that holds keys in memory, in the order they were added, and its end of a
connection. It can also be told to refuse everything, to stay silent, or to say a fixed thing
and hang up. -/

namespace SshKeyring

inductive Manner
  | serve
  | refuse
  | silent
  | hangUp (parting : Bytes)
  deriving DecidableEq, Repr

structure MemoryAgent where
  held : List Identity := []
  manner : Manner := .serve
  /-- Whether connections to it can be made. -/
  listening : Bool := true
  /-- The messages it got, the latest first. -/
  received : List Bytes := []
  deriving DecidableEq, Repr

namespace MemoryAgent

def forget (a : MemoryAgent) (k : PublicKey) : MemoryAgent :=
  { a with held := a.held.filter (·.publicKey ≠ k) }

def hold (a : MemoryAgent) (i : Identity) : MemoryAgent := { a with held := a.held ++ [i] }

/-- A key takes the place of an equal one and goes to the end. -/
def add (a : MemoryAgent) (x : Addition) : Response × MemoryAgent :=
  match x.privateKey.publicKey with
  | .error _ => (.failure, a)
  | .ok k => (.success, (a.forget k).hold { publicKey := k, comment := x.comment })

def handle (a : MemoryAgent) : Request → Response × MemoryAgent
  | .requestIdentities => (.identities a.held, a)
  | .addIdentity x => a.add x
  | .addConstrained x => a.add x.addition
  | .removeIdentity k =>
    if a.held.any (·.publicKey = k) then (.success, a.forget k) else (.failure, a)
  | .removeAllIdentities => (.success, { a with held := [] })

/-- The answer to a message: what does not decode is refused. -/
def answer (a : MemoryAgent) (message : Bytes) : Response × MemoryAgent :=
  match Request.decode message with
  | .ok r => a.handle r
  | .error _ => (.failure, a)

/-- What the agent puts on a connection: bytes, and whether it hangs up after them. -/
structure Reply where
  bytes : Bytes
  hangsUp : Bool

def Reply.ofResponse (r : Response) : Reply :=
  match r.encode >>= Frame.wrap with
  | .ok bytes => { bytes, hangsUp := false }
  | .error _ => { bytes := [], hangsUp := true }

def reply (a : MemoryAgent) (message : Bytes) : Reply × MemoryAgent :=
  let a := { a with received := message :: a.received }
  match a.manner with
  | .serve =>
    let (r, a) := a.answer message
    (.ofResponse r, a)
  | .refuse => (.ofResponse .failure, a)
  | .silent => ({ bytes := [], hangsUp := false }, a)
  | .hangUp parting => ({ bytes := parting, hangsUp := true }, a)

/-- The stream of a new connection, on which the agent has not said anything yet. -/
def opened : Stream := { reads := [.silence] }

def brokenPipe : IoError := { kind := .brokenPipe, text := "Broken pipe (os error 32)" }

/-- Takes the message that a client has written to its stream and lets the client read the reply
to it. Nothing can be written to a connection that the agent has closed. -/
def serve (a : MemoryAgent) (s : Stream) : MemoryAgent × Stream :=
  match Frame.cut? s.taken with
  | none => (a, s)
  | some (message, rest) =>
    let (r, a) := a.reply message
    let said := s.reads.filter (· ≠ .silence) ++ [.data r.bytes]
    if r.hangsUp then (a, { s with reads := said, writes := [.fail brokenPipe], taken := [] })
    else (a, { s with reads := said ++ [.silence], taken := rest })

/-- One request over a connection of its own. -/
def exchange (r : Request) (a : MemoryAgent) : Except AgentError Response × MemoryAgent :=
  let (sent, cursor) := (Client.send r).perform { stream := opened }
  match sent with
  | .error e => (.error e, a)
  | .ok () =>
    let (a, stream) := a.serve cursor.stream
    ((Client.receive.perform { cursor with stream }).1, a)

/-- A buffered client and the agent at the other end of its connection. -/
structure Connection where
  client : BufferedClient := { stream := opened }
  agent : MemoryAgent

/-- A request over a connection that stays open. -/
def Connection.exchange (r : Request) : Steps Connection AgentError Response := do
  let c ← get
  let (sent, client) := (BufferedClient.send r).perform c.client
  let (agent, stream) := c.agent.serve client.stream
  set { c with client := { client with stream }, agent }
  Steps.ofExcept sent
  let c ← get
  let (result, client) := BufferedClient.next.perform c.client
  set { c with client }
  match ← Steps.ofExcept result with
  | some answer => return answer
  | none => throw (.protocol .disconnected)

def Connection.request (r : Request) : Steps Connection AgentError Outcome := do
  Steps.ofExcept ((← exchange r).outcome r)

/-- Requests of a buffered client one after the other over one connection. -/
def converse (a : MemoryAgent) (requests : List Request) :
    List (Except AgentError Outcome) × MemoryAgent :=
  let (results, c) := requests.foldl (fun (results, c) r =>
    let (result, c) := (Connection.request r).perform c
    (result :: results, c)) ([], { agent := a })
  (results.reverse, c.agent)

end MemoryAgent

end SshKeyring
