import SshKeyring.Agent.Message
import SshKeyring.Steps

/-! What can go wrong between a client and its agent. -/

namespace SshKeyring

inductive IoKind
  | wouldBlock
  | timedOut
  | connectionReset
  | brokenPipe
  | interrupted
  | unexpectedEof
  | writeZero
  | notFound
  | invalidInput
  | other
  deriving DecidableEq, Repr

/-- A failure of a stream, with the text its owner gives it. -/
structure IoError where
  kind : IoKind
  text : String
  deriving DecidableEq, Repr

inductive AgentError
  | protocol (fault : MessageError)
  | io (fault : IoError)
  | key (fault : KeyError)
  | noAgent
  | connect (path : String) (fault : IoError)
  | timeout
  | failure
  deriving DecidableEq, Repr

def AgentError.message : AgentError → String
  | .protocol f => s!"Agent: Protocol error: {f.message}"
  | .io f => s!"Agent: I/O error: {f.text}"
  | .key f => s!"Agent: Key error: {f.message}"
  | .noAgent => "No SSH agent found, SSH_AUTH_SOCK is not set"
  | .connect path f => s!"Failed to connect to agent at {path}: {f.text}"
  | .timeout => "Agent did not respond in time"
  | .failure => "Agent refused the request"

/-- What an answer to anything but a list request means. -/
def Response.accepted : Response → Except AgentError Unit
  | .success => .ok ()
  | .failure => .error .failure
  | .identities _ => .error (.protocol .unexpectedResponse)

/-- What an answer to a list request means. -/
def Response.listed : Response → Except AgentError (List Identity)
  | .identities held => .ok held
  | .failure => .error .failure
  | .success => .error (.protocol .unexpectedResponse)

/-- What a request leads to when all goes well. -/
inductive Outcome
  | done
  | listed (held : List Identity)
  deriving DecidableEq, Repr

/-- What an answer means to the request it is given to. -/
def Response.outcome (answer : Response) : Request → Except AgentError Outcome
  | .requestIdentities => answer.listed.map .listed
  | _ => answer.accepted.map fun _ => .done

end SshKeyring
