import SshKeyring.Key.Legacy
import SshKeyring.Proofs.Cipher.Mode
import SshKeyring.Proofs.Der
import SshKeyring.Proofs.Key.Halves

/-! Traditional keys: what decodes from the integers of a body is a key of the label's type, and
it is the same whatever follows the integers. An encrypted body is decrypted with what the chain of
digests makes of the passphrase. -/

namespace SshKeyring.Legacy

theorem ofParts_of_rsaKey {body : Bytes} {k : PrivateKey} (h : rsaKey body = .ok k) :
    ∃ parts, PrivateKey.ofParts .rsa parts = .ok k := by
  obtain ⟨ints, -, h⟩ := bind_eq_ok.1 h
  split at h
  · obtain ⟨inverse, -, h⟩ := bind_eq_ok.1 h
    exact ⟨_, h⟩
  · cases h

theorem ofParts_of_dsaKey {body : Bytes} {k : PrivateKey} (h : dsaKey body = .ok k) :
    ∃ parts, PrivateKey.ofParts .dss parts = .ok k := by
  obtain ⟨ints, -, h⟩ := bind_eq_ok.1 h
  exact ⟨_, h⟩

theorem ofParts_of_decode {kind : Kind} {body : Bytes} {k : PrivateKey}
    (h : decode kind body = .ok k) : ∃ parts, PrivateKey.ofParts kind.keyType parts = .ok k := by
  cases kind with
  | rsa => exact ofParts_of_rsaKey h
  | dsa => exact ofParts_of_dsaKey h

theorem wellFormed_of_decode {kind : Kind} {body : Bytes} {k : PrivateKey}
    (h : decode kind body = .ok k) : k.type = kind.keyType ∧ k.WellFormed := by
  obtain ⟨parts, h⟩ := ofParts_of_decode h
  refine ⟨?_, PrivateKey.wellFormed_of_ofParts h⟩
  obtain ⟨-, -, rfl⟩ := PrivateKey.ofParts_eq_ok_iff.1 h
  rfl

theorem ne_nil_of_decode {kind : Kind} {body : Bytes} {k : PrivateKey}
    (h : decode kind body = .ok k) : body ≠ [] := by
  rintro rfl
  cases kind <;> cases h

theorem decode_append {kind : Kind} {body : Bytes} {k : PrivateKey}
    (h : decode kind body = .ok k) (more : Bytes) : decode kind (body ++ more) = .ok k := by
  have same {least most : Nat} {ints : List Bytes}
      (hints : (Der.integersOf body least most).mapError KeyError.der = .ok ints) :
      (Der.integersOf (body ++ more) least most).mapError KeyError.der = .ok ints :=
    mapError_eq_ok.2 (Der.integersOf_append (mapError_eq_ok.1 hints) more)
  cases kind with
  | rsa =>
    obtain ⟨ints, hints, h⟩ := bind_eq_ok.1 h
    exact bind_eq_ok.2 ⟨ints, same hints, h⟩
  | dsa =>
    obtain ⟨ints, hints, h⟩ := bind_eq_ok.1 h
    exact bind_eq_ok.2 ⟨ints, same hints, h⟩

theorem decrypt_encrypt {cipher : String} {kind : CipherKind}
    (hkind : CipherKind.ofName? cipher = some kind) {passphrase : String} (hp : passphrase ≠ "")
    {iv key text : Bytes} (hiv : iv.length = blockSize)
    (hkey : Md5Chain.derive (Utf8.encode passphrase) iv kind.keySize = .ok key)
    (hl : key.length = kind.keySize) (ht : kind.isCbc → text.length % blockSize = 0) :
    decrypt cipher iv (kind.encrypt key iv text) passphrase = .ok text := by
  have given : passphrase.isEmpty = false := by simpa using hp
  simp only [decrypt, hkind, given, Bool.false_eq_true, if_false, bind_eq_ok]
  exact ⟨key, hkey, _, Decryptor.ofKey_eq_ok hl hiv, Decryptor.decrypt_encrypt ht key iv⟩

end SshKeyring.Legacy
