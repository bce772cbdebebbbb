import SshKeyring.Digest.Md5
import SshKeyring.Key.Error

/-! Key material from a chain of MD5 digests, each over the one before it, the passphrase and
the first eight bytes of the initial vector. -/

namespace SshKeyring.Md5Chain

/-- Puts digests behind `output`, the first of them over `last`, until `target` bytes are there. -/
def extend (secret : Bytes) (target : Nat) (output last : Bytes) : Bytes :=
  if output.length < target then
    let next := md5 (last ++ secret)
    extend secret target (output ++ next) next
  else output
termination_by target - output.length

/-- The last digest may have more bytes than are wanted. -/
def derive (passphrase iv : Bytes) (length : Nat) : Except KeyError Bytes :=
  if iv.length < 8 then .error (.ivTooShort iv.length)
  else .ok ((extend (passphrase ++ iv.take 8) length [] []).take length)

end SshKeyring.Md5Chain
