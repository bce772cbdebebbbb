import SshKeyring.Agent.Message

/-! Where the agent is and how long to wait for it, and what to ask of it for an added key. -/

namespace SshKeyring

/-- In milliseconds. -/
def defaultTimeout : Nat := 500

structure AgentConfig where
  /-- Goes before the path that the environment names, unless it is empty. -/
  socket : Option String := none
  timeout : Nat := defaultTimeout
  deriving DecidableEq, Repr

namespace AgentConfig

def nonEmpty (path : Option String) : Option String := path.filter (!·.isEmpty)

/-- The path to connect to; `environment` is what the environment names. -/
def path (c : AgentConfig) (environment : Option String) : Option String :=
  nonEmpty c.socket <|> nonEmpty environment

/-- A stream cannot wait for no time at all: zero stands for the default. -/
def effectiveTimeout (c : AgentConfig) : Nat := if c.timeout = 0 then defaultTimeout else c.timeout

end AgentConfig

/-- The three digits of a number below a thousand, without the zeros at their end. -/
def thousandths (n : Nat) : List Char :=
  let digits := [n / 100, n / 10 % 10, n % 10].map fun d => Char.ofNat (48 + d)
  (digits.reverse.dropWhile (· = '0')).reverse

/-- A time in milliseconds, or in seconds from one second on. -/
def durationText (milliseconds : Nat) : String :=
  if milliseconds < 1000 then s!"{milliseconds}ms"
  else
    match thousandths (milliseconds % 1000) with
    | [] => s!"{milliseconds / 1000}s"
    | fraction => s!"{milliseconds / 1000}.{String.ofList fraction}s"

structure AddOptions where
  confirm : Bool := false
  /-- In seconds; zero is no limit. -/
  lifetime : UInt32 := 0
  removeOnClose : Bool := false
  deriving DecidableEq, Repr

def AddOptions.constraints (o : AddOptions) : List Constraint :=
  (if o.lifetime = 0 then [] else [.lifetime o.lifetime]) ++ (if o.confirm then [.confirm] else [])

end SshKeyring
