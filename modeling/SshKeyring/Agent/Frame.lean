import SshKeyring.Agent.Error

/-! Frames: on the way between client and agent each message stands behind the count of its
bytes. A client takes no longer message than `maxLength`. -/

namespace SshKeyring.Frame

/-- The longest message that is accepted. -/
def maxLength : Nat := 256 * 1024

/-- The frame of a message. -/
def wrap (body : Bytes) : Except WireError Bytes := Wire.putString body

def encode (r : Request) : Except AgentError Bytes :=
  (do wrap (← r.encode) : Except WireError Bytes).mapError fun e => .protocol (.wire e)

/-- The length that the first frame of a buffer announces, where its count is there to tell. -/
def announced? : Bytes → Option Nat
  | a :: b :: c :: d :: _ => some (Bytes.toNat [a, b, c, d])
  | _ => none

/-- The message of the first frame and the bytes after it, if the frame is complete. -/
def cut? (buffer : Bytes) : Option (Bytes × Bytes) := do
  let n ← announced? buffer
  let inside := buffer.drop 4
  let body := inside.take n
  if body.length = n then some (body, inside.drop n) else none

/-- How many bytes the first frame still needs, as far as it tells. -/
def missing (buffer : Bytes) : Nat :=
  match announced? buffer with
  | some n => 4 + n - buffer.length
  | none => 0

/-- The message of the first frame in a buffer and the bytes after it; nothing yet while the
frame is not complete. A frame that announces too long a message is refused at once. -/
def split (buffer : Bytes) : Except WireError (Option (Bytes × Bytes)) :=
  match announced? buffer with
  | some n => if n > maxLength then .error .length else .ok (cut? buffer)
  | none => .ok none

/-- Takes the first complete frame out of the buffer and decodes it. A message that does not
decode is taken out all the same. -/
def decode : Steps Bytes AgentError (Option Response) := do
  match split (← get) with
  | .error e => throw (.protocol (.wire e))
  | .ok none => return none
  | .ok (some (body, rest)) =>
    set rest
    match Response.decode body with
    | .ok r => return some r
    | .error e => throw (.protocol e)

end SshKeyring.Frame
