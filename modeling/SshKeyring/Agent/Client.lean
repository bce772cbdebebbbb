import SshKeyring.Agent.Cursor

/-! A client that sends a request and waits for its answer before it does anything else. Bytes
behind the message in an answer's frame are ignored. -/

namespace SshKeyring.Client

abbrev Call (α : Type) : Type := Steps Cursor AgentError α

def onCursor {α : Type} (task : Cursor.Task α) : Call α := ExceptT.adapt CursorError.toAgentError task

def send (r : Request) : Call Unit := do
  let body ← Steps.ofExcept (r.encode.mapError fun e => AgentError.protocol (.wire e))
  onCursor (Cursor.writeString body)
  onCursor Cursor.flush

def receive : Call Response := do
  let body ← onCursor Cursor.readString
  Steps.ofExcept ((Response.decode body).mapError .protocol)

def exchange (r : Request) : Call Response := do
  send r
  receive

def request (r : Request) : Call Outcome := do Steps.ofExcept ((← exchange r).outcome r)

end SshKeyring.Client
