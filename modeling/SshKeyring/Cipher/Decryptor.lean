import SshKeyring.Cipher.Mode
import SshKeyring.Key.Error

/-! The ciphers that private sections may be under, and a decryptor for one key and initial
vector. Padding is left where it is. -/

namespace SshKeyring

inductive CipherKind
  | aes128Cbc
  | aes256Cbc
  | aes256Ctr
  deriving DecidableEq, Repr

namespace CipherKind

/-- The cipher of a name, in which hyphens and the case of ASCII letters do not count. -/
def ofName? (name : String) : Option CipherKind :=
  match String.ofList ((name.toList.filter (· ≠ '-')).map Char.toLower) with
  | "aes128cbc" => some .aes128Cbc
  | "aes256cbc" => some .aes256Cbc
  | "aes256ctr" => some .aes256Ctr
  | _ => none

def label : CipherKind → String
  | .aes128Cbc => "Aes128Cbc"
  | .aes256Cbc => "Aes256Cbc"
  | .aes256Ctr => "Aes256Ctr"

def keySize : CipherKind → Nat
  | .aes128Cbc => 16
  | .aes256Cbc => 32
  | .aes256Ctr => 32

def isCbc : CipherKind → Bool
  | .aes256Ctr => false
  | _ => true

/-- Encryption under a key and an initial vector of the cipher's sizes. -/
def encrypt (kind : CipherKind) (key iv text : Bytes) : Bytes :=
  if kind.isCbc then Cbc.encrypt (Aes.cipher key) iv text else Ctr.apply (Aes.cipher key) iv text

end CipherKind

structure Decryptor where
  kind : CipherKind
  key : Bytes
  iv : Bytes
  deriving DecidableEq, Repr

namespace Decryptor

def ofKey (kind : CipherKind) (key iv : Bytes) : Except KeyError Decryptor :=
  if key.length = kind.keySize ∧ iv.length = blockSize then .ok { kind, key, iv }
  else .error (.invalidCipherParameters key.length iv.length)

/-- Decrypts a text from the initial vector on. CBC takes whole blocks only. -/
def decrypt (d : Decryptor) (text : Bytes) : Except KeyError Bytes :=
  if d.kind.isCbc then
    if text.length % blockSize = 0 then .ok (Cbc.decrypt (Aes.cipher d.key) d.iv text)
    else .error .decryptionFailed
  else .ok (Ctr.apply (Aes.cipher d.key) d.iv text)

/-- What a log may show of a decryptor: the cipher and nothing of the key. -/
def redacted (d : Decryptor) : String := s!"Decryptor \x7b kind: {d.kind.label}, .. \x7d"

end Decryptor

end SshKeyring
