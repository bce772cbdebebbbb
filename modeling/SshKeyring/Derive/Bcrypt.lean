import SshKeyring.Derive.Blowfish
import SshKeyring.Digest.Sha2
import SshKeyring.Key.Error

/-! Key material from a passphrase by many rounds of bcrypt. Blocks of 32 bytes are made one by
one and dealt out so that each byte of the result after the first few comes from another block
than its neighbours. -/

namespace SshKeyring.Bcrypt

def word (b : Bytes) : UInt32 := UInt32.ofNat (Bytes.toNat b)

/-- The sixteen words of a digest of 64 bytes. -/
def words (b : Bytes) : Vector UInt32 16 :=
  let ws := ((pieces 4 b).map word).toArray
  Vector.ofFn fun i => ws[i]?.getD 0

def noSalt : Vector UInt32 16 := Vector.replicate 16 0

/-- The state after `n` more turns of expanding it with the salt and then with the key. -/
def schedule (salt key : Vector UInt32 16) : Nat → Blowfish.State → Blowfish.State
  | 0, s => s
  | n + 1, s =>
    schedule salt key n (Blowfish.expand noSalt key (Blowfish.expand noSalt salt s))

/-- Enciphers a pair of words `n` times over. -/
def encipherTimes (s : Blowfish.State) : Nat → UInt32 × UInt32 → UInt32 × UInt32
  | 0, p => p
  | n + 1, (l, r) => encipherTimes s n (Blowfish.encipher s l r)

def plaintext : List (UInt32 × UInt32) :=
  (pieces 8 "OxychromaticBlowfishSwatDynamite".toUTF8.toList).map fun b =>
    (word (b.take 4), word (b.drop 4))

/-- The 32 byte hash of two digests of 64 bytes. -/
def hash (password salt : Bytes) : Bytes :=
  let key := words password
  let salt := words salt
  let s := schedule salt key 64 (Blowfish.expand salt key Blowfish.piWords)
  plaintext.flatMap fun p =>
    let (l, r) := encipherTimes s 64 p
    (Bytes.ofNat 4 l.toNat).reverse ++ (Bytes.ofNat 4 r.toNat).reverse

/-- Adds `n` more hashes to `sum`, each salted by the one before. -/
def iterate (password : Bytes) : Nat → (last sum : Bytes) → Bytes
  | 0, _, sum => sum
  | n + 1, last, sum =>
    let next := hash password (sha512 last)
    iterate password n next (Bytes.xor sum next)

/-- The block of a number, counted from one. -/
def block (password salt : Bytes) (rounds number : Nat) : Bytes :=
  let first := hash password (sha512 (salt ++ Bytes.ofNat 4 number))
  iterate password (rounds - 1) first first

def maxLength : Nat := 1024

def derive (passphrase salt : Bytes) (rounds length : Nat) : Except KeyError Bytes :=
  if passphrase = [] ∨ salt = [] ∨ rounds = 0 ∨ length = 0 ∨ length > maxLength then
    .error .kdfFailed
  else
    let password := sha512 passphrase
    let count := (length + 31) / 32
    let blocks := (List.range count).map fun i => block password salt rounds (i + 1)
    .ok ((List.range length).map fun i => (blocks.getD (i % count) []).getD (i / count) 0)

end SshKeyring.Bcrypt
