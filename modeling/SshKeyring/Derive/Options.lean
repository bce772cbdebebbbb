import SshKeyring.Key.Error

/-! The parameters of the bcrypt derivation as a container stores them: a salt and a number of
rounds. -/

namespace SshKeyring

structure KdfOptions where
  salt : Bytes
  rounds : UInt32
  deriving DecidableEq, Repr

namespace KdfOptions

def read : Reader KeyError KdfOptions := Reader.mapError .ofWire do
  return { salt := ← Wire.string, rounds := ← Wire.word }

def ofBytes (b : Bytes) : Except KeyError KdfOptions := read.whole .trailing b

def encode (o : KdfOptions) : Except WireError Bytes :=
  return (← Wire.putString o.salt) ++ Wire.putWord o.rounds

end KdfOptions

end SshKeyring
