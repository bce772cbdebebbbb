import SshKeyring.Agent.Frame

/-! Bytes that were read and not yet taken out as frames, in a store of limited extent. A read
brings no more than there is room for behind them, so how the store makes room decides how far
ahead of the next frame a client reads. -/

namespace SshKeyring

structure Inbox where
  bytes : Bytes := []
  /-- The places in front of the bytes, which the frames before them have left. -/
  gap : Nat := 0
  /-- All places of the store. -/
  extent : Nat := 8192
  deriving DecidableEq, Repr

namespace Inbox

/-- The places behind the bytes. -/
def room (i : Inbox) : Nat := i.extent - (i.gap + i.bytes.length)

/-- Makes room for `n` bytes. Where there is not enough, the bytes move to the front of the store
if that will do and they fit into the gap; otherwise the store grows, at least to twice its
extent. -/
def reserve (n : Nat) (i : Inbox) : Inbox :=
  if n ≤ i.room then i
  else if i.bytes.length + n ≤ i.extent ∧ i.bytes.length ≤ i.gap then { i with gap := 0 }
  else { i with extent := max (2 * i.extent) (i.gap + i.bytes.length + n) }

/-- Puts bytes behind the others. -/
def append (i : Inbox) (b : Bytes) : Inbox := { i with bytes := i.bytes ++ b }

/-- Takes out all bytes before `rest`, with which they end. -/
def dropTo (i : Inbox) (rest : Bytes) : Inbox :=
  { i with bytes := rest, gap := i.gap + (i.bytes.length - rest.length) }

/-- Takes the first frame out and decodes it. Where it is not complete, room is made for what is
missing. -/
def decode : Steps Inbox AgentError (Option Response) := do
  let i ← get
  let (result, rest) := Frame.decode.perform i.bytes
  let i := i.dropTo rest
  match result with
  | .ok none =>
    set (i.reserve (Frame.missing rest))
    return none
  | result =>
    set i
    Steps.ofExcept result

@[simp] theorem bytes_reserve (n : Nat) (i : Inbox) : (i.reserve n).bytes = i.bytes := by
  unfold reserve
  split
  · rfl
  · split <;> rfl

theorem le_room_reserve (n : Nat) (i : Inbox) : n ≤ (i.reserve n).room := by
  unfold reserve
  split
  · assumption
  · split <;> simp only [room] <;> omega

end Inbox

end SshKeyring
