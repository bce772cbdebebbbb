import SshKeyring.Agent.Config
import SshKeyring.Agent.MemoryAgent
import SshKeyring.Key

/-! A session with an agent: every operation makes a connection, sends one request and waits for
the answer. The session remembers the keys it has added and which of them to take away at its
end. -/

namespace SshKeyring

/-- How a session reaches its agent, whose state is a `σ`. -/
structure Link (σ : Type) where
  /-- Why a connection to a path cannot be made, if it cannot. -/
  obstacle : String → σ → Option IoError
  /-- One request over a connection of its own. -/
  exchange : Request → σ → Except AgentError Response × σ

/-- A socket address holds the bytes of a path and a zero after them, 108 in all. -/
def pathLimit : Nat := 108

/-- What keeps a path from being the address of a socket. -/
def pathFault? (path : String) : Option IoError :=
  if 0 ∈ Utf8.encode path then
    some { kind := .invalidInput, text := "paths must not contain interior null bytes" }
  else if (Utf8.encode path).length ≥ pathLimit then
    some { kind := .invalidInput, text := "path must be shorter than SUN_LEN" }
  else none

def noSuchFile : IoError := { kind := .notFound, text := "No such file or directory (os error 2)" }

def MemoryAgent.link : Link MemoryAgent where
  obstacle _ a := if a.listening then none else some noSuchFile
  exchange := MemoryAgent.exchange

/-- A machine on which nothing listens anywhere. -/
def Link.nowhere : Link Unit where
  obstacle _ _ := some noSuchFile
  exchange _ s := (.error .timeout, s)

structure Session where
  path : Option String
  timeout : Nat
  /-- Added keys, in the order they were first added, and whether to remove them. -/
  remembered : List (PublicKey × Bool) := []
  deriving DecidableEq, Repr

namespace Session

def ofConfig (c : AgentConfig) (environment : Option String) : Session :=
  { path := c.path environment, timeout := c.effectiveTimeout }

def hasAgent (s : Session) : Bool := s.path.isSome

/-- Marks a key as added. Once it is to be removed it stays so. -/
def remember (s : Session) (k : PublicKey) (remove : Bool) : Session :=
  { s with remembered :=
      if s.remembered.any (·.1 = k) then
        s.remembered.map fun (k', flag) => if k' = k then (k', flag || remove) else (k', flag)
      else s.remembered ++ [(k, remove)] }

def forget (s : Session) (k : PublicKey) : Session :=
  { s with remembered := s.remembered.filter (·.1 ≠ k) }

/-- The keys to remove at the end. -/
def flagged (s : Session) : List PublicKey := (s.remembered.filter (·.2)).map (·.1)

variable {σ : Type}

/-- Steps of a session and of the agent it reaches. -/
abbrev Call (σ α : Type) : Type := Steps (Session × σ) AgentError α

def update (f : Session → Session) : Call σ Unit := modify fun (s, agent) => (f s, agent)

def ofKey {α : Type} (x : Except KeyError α) : Call σ α := Steps.ofExcept (x.mapError .key)

def connect (link : Link σ) : Call σ Unit := do
  let (s, agent) ← get
  match s.path with
  | none => throw .noAgent
  | some path =>
    match pathFault? path <|> link.obstacle path agent with
    | some e => throw (.connect path e)
    | none => return

def isReachable (link : Link σ) (s : Session) (agent : σ) : Bool :=
  ((connect link).perform (s, agent)).1.isOk

def exchange (link : Link σ) (r : Request) : Call σ Response := do
  connect link
  let (s, agent) ← get
  let (result, agent) := link.exchange r agent
  set (s, agent)
  Steps.ofExcept result

/-- A request that is either done or refused. -/
def command (link : Link σ) (r : Request) : Call σ Unit := do
  Steps.ofExcept (← exchange link r).accepted

/-- The request that adds a key: a plain one unless there are constraints. -/
def addRequest (addition : Addition) (constraints : List Constraint) : Request :=
  if constraints = [] then .addIdentity addition else .addConstrained { addition, constraints }

def add (link : Link σ) (key : Key) (options : AddOptions) : Call σ Unit := do
  let publicKey ← ofKey key.publicKey
  let privateKey ← ofKey key.privateKey
  command link (addRequest { privateKey, comment := key.comment } options.constraints)
  update (·.remember publicKey options.removeOnClose)

def remove (link : Link σ) (key : Key) : Call σ Unit := do
  let publicKey ← ofKey key.publicKey
  command link (.removeIdentity publicKey)
  update (·.forget publicKey)

def list (link : Link σ) : Call σ (List Identity) := do
  Steps.ofExcept (← exchange link .requestIdentities).listed

/-- Whether the agent holds the key. -/
def check (link : Link σ) (key : Key) : Call σ Bool := do
  let publicKey ← ofKey key.publicKey
  return (← list link).any (·.publicKey = publicKey)

/-- Removes the keys one after the other and forgets those that are gone. The last failure is
the result, and none of them ends the attempt. -/
def removeEach (link : Link σ) (result : Except AgentError Unit) : List PublicKey → Call σ Unit
  | [] => Steps.ofExcept result
  | k :: rest => do
    match ← observing (command link (.removeIdentity k)) with
    | .ok () =>
      update (·.forget k)
      removeEach link result rest
    | .error e => removeEach link (.error e) rest

/-- Removes the keys that are to be removed, in the order that they are put in. -/
def removeAddedIn (order : List PublicKey → List PublicKey) (link : Link σ) : Call σ Unit := do
  let (s, _) ← get
  removeEach link (.ok ()) (order s.flagged)

/-- Removes the keys that are to be removed, those first that were added first. -/
def removeAdded (link : Link σ) : Call σ Unit := removeAddedIn id link

def removeAll (link : Link σ) : Call σ Unit := do
  command link .removeAllIdentities
  update fun s => { s with remembered := [] }

end Session

end SshKeyring
