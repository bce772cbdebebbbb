import SshKeyring.Key
import SshKeyring.Proofs.Key.Container

/-! The data that a container's key is read from, and the key. A container is taken apart from the
front: what it says about the cipher, its first public key and its private section are all that the
key depends on. How many more public keys there are, whether they are keys at all, and what follows
the comment of a section that is not encrypted or the container itself, makes no difference. -/

namespace SshKeyring

open Wire

namespace PrivateSection

/-- In front of the byte string stands one integer twice, and then the encoding of the section's
private key, which has the given type, and a comment. The comment need not be UTF-8. -/
def Heads (s : PrivateSection) (type : KeyType) (b : Bytes) : Prop :=
  ∃ (check : UInt32) (key comment behind : Bytes),
    s.privateKey.type = type ∧ s.privateKey.WellFormed ∧
      (∀ part ∈ s.privateKey.parts, part.length ≤ maxLength) ∧ s.privateKey.encode = .ok key ∧
        comment.length ≤ maxLength ∧ s.comment = Utf8.decodeLossy comment ∧
          b = putWord check ++ putWord check ++ key ++ stringBytes comment ++ behind

theorem decode_eq_ok_iff {type : KeyType} {s : PrivateSection} {b : Bytes} :
    decode type b = .ok s ↔ s.Heads type b := by
  rw [decode, map_eq_ok]
  constructor
  · rintro ⟨⟨_, behind⟩, hread, rfl⟩
    obtain ⟨htype, hkey, check, comment, hl, hcomment, hb⟩ := read_eq_ok_iff.1 hread
    exact ⟨check, _, comment, behind, htype, hkey.1, hkey.2, PrivateKey.encode_of_readable hkey, hl,
      hcomment, hb⟩
  · rintro ⟨check, key, comment, behind, htype, hkey, hparts, hencode, hl, hcomment, hb⟩
    obtain ⟨-, rfl⟩ := PrivateKey.encode_eq_ok_iff.1 hencode
    exact ⟨(s, behind),
      read_eq_ok_iff.2 ⟨htype, ⟨hkey, hparts⟩, check, comment, hl, hcomment, hb⟩, rfl⟩

end PrivateSection

namespace Container

/-- In front of the data stands the container: the magic, the names of the cipher and of the key
derivation, the options of the latter, the number of the public keys, the encoding of the
container's key and as many more strings, of whatever kind, and the private section. -/
def Heads (c : Container) (data : Bytes) : Prop :=
  ∃ (first : Bytes) (others : List Bytes) (tail : Bytes),
    c.publicKey.WellFormed ∧ c.publicKey.encode = .ok first ∧
      (first :: others).length < countLimit ∧
        (∀ b ∈ [Utf8.encode c.cipher, Utf8.encode c.kdf, c.kdfOptions] ++ first :: others ++ [c.body],
          b.length ≤ maxLength) ∧
          data = magic ++ stringBytes (Utf8.encode c.cipher) ++ stringBytes (Utf8.encode c.kdf) ++
            stringBytes c.kdfOptions ++ putWord (UInt32.ofNat (first :: others).length) ++
              (first :: others).flatMap stringBytes ++ stringBytes c.body ++ tail

theorem decode_eq_ok_iff {c : Container} {data : Bytes} : decode data = .ok c ↔ c.Heads data := by
  rw [decode, map_eq_ok]
  constructor
  · rintro ⟨⟨_, tail⟩, hread, rfl⟩
    obtain ⟨hkey, short, others, hn, hothers, hdata⟩ := read_eq_ok_iff.1 hread
    have readable := PublicKey.readable_of_length_le hkey short.publicKey
    refine ⟨_, others, tail, hkey, PublicKey.encode_of_readable readable, hn, ?_, ?_⟩
    · simpa [or_imp, forall_and] using
        ⟨short.cipher, short.kdf, short.kdfOptions, short.publicKey, hothers, short.body⟩
    · simpa [wireAmong] using hdata
  · rintro ⟨first, others, tail, hkey, hencode, hn, hshort, hdata⟩
    obtain ⟨-, rfl⟩ := PublicKey.encode_eq_ok_iff.1 hencode
    have short : c.Short := ⟨hshort _ (by simp), hshort _ (by simp), hshort _ (by simp),
      hshort _ (by simp), hshort _ (by simp)⟩
    have hothers : ∀ b ∈ others, b.length ≤ maxLength := fun b hb => hshort b (by simp [hb])
    exact ⟨(c, tail), read_eq_ok_iff.2 ⟨hkey, short, others, hn, hothers,
      by simpa [wireAmong] using hdata⟩, rfl⟩

end Container

namespace Key

/-- The key that a container with an encrypted section is read as. -/
def lockedBy (c : Container) : Key where
  type := c.publicKey.type
  format := .openSsh
  publicHalf := some c.publicKey
  comment := ""
  cipher := c.cipher
  kdf := c.kdf
  kdfOptions := c.kdfOptions
  secret := .locked c.body []

/-- The key that a container is read as whose section is not encrypted and holds a private key and
a comment. -/
def unlockedBy (c : Container) (s : PrivateSection) : Key :=
  { lockedBy c with comment := s.comment, secret := .unlocked s.privateKey }

theorem ofContainer_of_encrypted {c : Container} (h : c.cipher ≠ noneName) :
    ofContainer c = .ok (lockedBy c) := by
  rw [ofContainer, if_neg h]
  rfl

theorem ofContainer_of_unencrypted {c : Container} (h : c.cipher = noneName) :
    ofContainer c = (PrivateSection.decode c.publicKey.type c.body).map (unlockedBy c) := by
  rw [ofContainer, if_pos h]
  cases PrivateSection.decode c.publicKey.type c.body <;> rfl

/-- Data is read as a key just where a container stands in front of it whose section, if it is not
encrypted, has a private key of the type of the public one and a comment in front. Nothing but the
container's fields goes into the key, and if the section is not encrypted nothing of that but the
private key and the comment. -/
theorem ofContainer_decode_eq_ok_iff (data : Bytes) (k : Key) :
    (Container.decode data >>= ofContainer) = .ok k ↔
      ∃ c : Container, c.Heads data ∧
        if c.cipher = noneName then
          ∃ s : PrivateSection, s.Heads c.publicKey.type c.body ∧ k = unlockedBy c s
        else k = lockedBy c := by
  simp only [bind_eq_ok, Container.decode_eq_ok_iff]
  refine exists_congr fun c => and_congr_right fun _ => ?_
  by_cases h : c.cipher = noneName
  · rw [if_pos h, ofContainer_of_unencrypted h, map_eq_ok]
    exact exists_congr fun s => and_congr PrivateSection.decode_eq_ok_iff eq_comm
  · rw [if_neg h, ofContainer_of_encrypted h, Except.ok.injEq, eq_comm]

end Key

end SshKeyring
