import SshKeyring.Proofs.Key.Coefficient
import SshKeyring.Proofs.Key.Identity
import SshKeyring.Proofs.Key.PublicHalf
import SshKeyring.Proofs.Key.SealedLegacy

/-! An RSA key and a block of its public half alone. The block's two integers are taken as they
stand there; those of the private key's body are brought into canonical form. Both ways the numbers
are the same. The keys are the same just if the integers are in canonical form in the first place.
-/

namespace SshKeyring

namespace Legacy

theorem publicKey_of_integers {p : PemBlock} (hp : p.label = publicLabel) {n e : Bytes}
    (h : Der.integersOf p.data 2 2 = .ok [n, e]) :
    publicKey p = .ok { type := .rsa, parts := [e, n] } := by
  have label : ¬ p.label ≠ publicLabel := not_not.2 hp
  unfold publicKey
  rw [if_neg label]
  exact bind_eq_ok.2 ⟨[n, e], mapError_eq_ok.2 h, rfl⟩

end Legacy

namespace Key

/-- An RSA key that was read from a traditional text, and any public block of the integers that the
key's body has for its modulus and exponent. The block is read, as a key of the same numbers; it is
the public half of the key just if both integers are in canonical form. -/
theorem publicHalf_eq_publicBlock_iff {text : Bytes} {k : Key} (h : parse text = .ok k)
    (hformat : k.format = .legacy .rsa) (passphrases : List String) {privateKey : PrivateKey}
    (hu : (k.tryAll passphrases).1.secret = .unlocked privateKey) :
    ∃ q body version n e more half, PemBlock.parse text = .ok q ∧
      Legacy.Opens q passphrases body ∧
        Der.integersOf body 6 9 = .ok (version :: n :: e :: more) ∧
          (k.tryAll passphrases).1.publicHalf = some half ∧
            ∀ p : PemBlock, p.label = Legacy.publicLabel → Der.integersOf p.data 2 2 = .ok [n, e] →
              ∃ publicKey, Legacy.publicKey p = .ok publicKey ∧ publicKey.type = half.type ∧
                publicKey.parts.map Bytes.toNat = half.parts.map Bytes.toNat ∧
                  (publicKey = half ↔ Mpint.IsCanonical n ∧ Mpint.IsCanonical e) := by
  obtain ⟨q, hq, h⟩ := bind_eq_ok.1 h
  obtain ⟨c, -, hk⟩ | ⟨kind, hk⟩ := ofPem_eq_ok h
  · rw [hk.format] at hformat
    cases hformat
  obtain ⟨-, hkind, -⟩ := ofLegacy_eq_ok hk
  obtain rfl : kind = .rsa := KeyFormat.legacy.inj (hkind.symm.trans hformat)
  obtain ⟨body, half, hopens, hbody, hhalf, hpublic, -⟩ := tryAll_of_ofLegacy hk passphrases hu
  obtain ⟨version, n, e, more, hints, rfl⟩ := Legacy.exists_integers_of_rsaKey hbody hhalf
  refine ⟨q, body, version, n, e, more, _, hq, hopens, hints, hpublic, fun p hp hpints => ?_⟩
  refine ⟨_, Legacy.publicKey_of_integers hp hpints, rfl, ?_, ?_⟩
  · simp [Mpint.toNat_ofMagnitude]
  · -- the block has the integers themselves, the public half their canonical forms
    rw [← Mpint.ofMagnitude_eq_self_iff, ← Mpint.ofMagnitude_eq_self_iff]
    simp [eq_comm, and_comm]

open Legacy

/-- The block of the key of `bareBody`, in which the modulus 143 has no zero in front. -/
def barePrivate : PemBlock := { label := (KeyFormat.legacy .rsa).label, data := bareBody }

/-- The block of its public half, with the same two integers. -/
def barePublic : PemBlock :=
  { label := publicLabel, data := [0x30, 0x06, 0x02, 0x01, 0x8F, 0x02, 0x01, 0x07] }

def bareText : Bytes := Utf8.encode (barePrivate.encode lineWidth)

def bareKey : Key :=
  plainLegacy .rsa { type := .rsa, parts := [[7], [0, 0x8F]] } (rsaKeyOf 143 7 103 6 13 11)

theorem written_bareText : barePrivate.Written bareText :=
  PemBlock.written_encode (p := barePrivate) (List.all_iff_forall_prop.1 (by decide)) lineWidth

theorem decode_bareBody : Legacy.decode .rsa bareBody = .ok (rsaKeyOf 143 7 103 6 13 11) := rfl

theorem parse_bareText : parse bareText = .ok bareKey :=
  parse_of_written_plain decode_bareBody rfl written_bareText

theorem bareKey_publicHalf : parse bareText = .ok bareKey ∧ bareKey.format = .legacy .rsa ∧
    ∃ publicKey half, Legacy.publicKey barePublic = .ok publicKey ∧
      bareKey.publicHalf = some half ∧
        publicKey.parts.map Bytes.toNat = half.parts.map Bytes.toNat ∧ publicKey ≠ half := by
  obtain ⟨q, body, version, n, e, more, half, hq, hopens, hints, hhalf, blocks⟩ :=
    publicHalf_eq_publicBlock_iff parse_bareText rfl [] rfl
  have block : PemBlock.parse bareText = .ok barePrivate :=
    written_bareText.parse_eq (isLabel_legacy .rsa) (by simp [barePrivate]) (by decide)
  obtain rfl : q = barePrivate := Except.ok.inj (hq.symm.trans block)
  obtain rfl : body = bareBody := hopens
  rw [bareBody_spelled.integersOf_eq (by decide) (by decide)] at hints
  cases hints
  obtain ⟨publicKey, hpublic, -, values, same⟩ := blocks barePublic rfl rfl
  refine ⟨parse_bareText, rfl, publicKey, half, hpublic, hhalf, values, fun he => ?_⟩
  exact absurd (same.1 he).1 (by decide)

/-- An RSA key and the block of its public half need not have the same public key, though the
integers in them are the same. -/
theorem publicHalf_ne_publicBlock :
    ¬ ∀ (body text : Bytes) (k : Key) (version n e : Bytes) (more : List Bytes) (p : PemBlock),
      PemBlock.Written { label := (KeyFormat.legacy .rsa).label, data := body } text →
        parse text = .ok k → Der.integersOf body 6 9 = .ok (version :: n :: e :: more) →
          p.label = publicLabel → Der.integersOf p.data 2 2 = .ok [n, e] →
            Legacy.publicKey p = k.publicKey := by
  intro same
  have halves := same bareBody bareText bareKey [0] [0x8F] [7] [[0x67], [13], [11]] barePublic
    written_bareText parse_bareText (bareBody_spelled.integersOf_eq (by decide) (by decide)) rfl rfl
  exact absurd halves (by decide)

end Key

end SshKeyring
