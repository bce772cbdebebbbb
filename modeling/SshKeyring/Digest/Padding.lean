import SshKeyring.Bytes

/-! The padding that MD5 and SHA-2 share: a bit of one, zeros up to the next block boundary,
and the length of the message in bits. -/

namespace SshKeyring.Digest

def pad (block : Nat) (lengthField : Nat → Bytes) (message : Bytes) : Bytes :=
  let n := message.length
  let ending := lengthField (8 * n)
  let zeros := (block - (n + 1 + ending.length) % block) % block
  message ++ 0x80 :: (List.replicate zeros 0 ++ ending)

end SshKeyring.Digest
