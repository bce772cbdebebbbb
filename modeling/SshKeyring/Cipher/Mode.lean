import SshKeyring.Cipher.Aes

/-! Two ways to apply a block cipher to a longer text. In CBC each block of plaintext is added
to the ciphertext before it; in CTR the text is added to the encryptions of successive values
of a 128 bit counter, which starts again at zero after its largest value. -/

namespace SshKeyring

def blockSize : Nat := 16

structure BlockCipher where
  encrypt : Aes.Block → Aes.Block
  decrypt : Aes.Block → Aes.Block

def Aes.cipher (key : Bytes) : BlockCipher :=
  let schedule := Aes.Schedule.ofKey key
  { encrypt := Aes.encrypt schedule, decrypt := Aes.decrypt schedule }

def blocks (b : Bytes) : List Aes.Block := (pieces blockSize b).map .ofBytes

def unblocks (bs : List Aes.Block) : Bytes := bs.flatMap Aes.Block.bytes

namespace Cbc

def encryptBlocks (c : BlockCipher) : Aes.Block → List Aes.Block → List Aes.Block
  | _, [] => []
  | last, p :: rest =>
    let x := c.encrypt (p.add last)
    x :: encryptBlocks c x rest

def decryptBlocks (c : BlockCipher) (iv : Aes.Block) (xs : List Aes.Block) : List Aes.Block :=
  List.zipWith (fun last x => (c.decrypt x).add last) (iv :: xs) xs

/-- Of a text that is a whole number of blocks. -/
def encrypt (c : BlockCipher) (iv text : Bytes) : Bytes :=
  unblocks (encryptBlocks c (.ofBytes iv) (blocks text))

/-- Of a text that is a whole number of blocks. -/
def decrypt (c : BlockCipher) (iv text : Bytes) : Bytes :=
  unblocks (decryptBlocks c (.ofBytes iv) (blocks text))

end Cbc

namespace Ctr

/-- The encryption of the counter `n` steps after the initial vector. -/
def key (c : BlockCipher) (iv : Bytes) (n : Nat) : Bytes :=
  (c.encrypt (.ofBytes (Bytes.ofNat blockSize (iv.toNat + n)))).bytes

/-- Encryption and decryption alike. -/
def apply (c : BlockCipher) (iv text : Bytes) : Bytes :=
  (pieces blockSize text).zipIdx.flatMap fun (piece, n) => Bytes.xor piece (key c iv n)

end Ctr

end SshKeyring
