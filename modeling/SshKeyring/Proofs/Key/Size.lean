import SshKeyring.Proofs.Key.Identity
import SshKeyring.Proofs.Key.PublicHalf
import SshKeyring.Proofs.Key.SealedLegacy
import SshKeyring.Proofs.Mpint

/-! The size of a traditional key. It is worked out from the length of a canonical form, which has
one byte besides the whole bytes of the integer: a last byte that is not full, or the zero in front
of one that is. So the size is that of the modulus without the bits that fill no whole byte,
whatever zeros the modulus begins with in the body. -/

namespace SshKeyring.Key

/-- The size of a traditional key that was read unencrypted or has been unlocked is the size of its
modulus, rounded down to whole bytes. -/
theorem bits_of_parse {text : Bytes} {k : Key} (h : parse text = .ok k) {kind : Legacy.Kind}
    (hformat : k.format = .legacy kind) (passphrases : List String) {privateKey : PrivateKey}
    (hu : (k.tryAll passphrases).1.secret = .unlocked privateKey) :
    ∃ p body version modulus more, PemBlock.parse text = .ok p ∧
      Legacy.Opens p passphrases body ∧ Legacy.decode kind body = .ok privateKey ∧
        Der.integersOf body 6 kind.most = .ok (version :: modulus :: more) ∧
          (k.tryAll passphrases).1.bits = 8 * ((Bytes.toNat modulus).size / 8) ∧
            (8 ∣ (Bytes.toNat modulus).size →
              (k.tryAll passphrases).1.bits = (Bytes.toNat modulus).size) ∧
              (k.tryAll passphrases).1.bits ≤ (Bytes.toNat modulus).size ∧
                (Bytes.toNat modulus).size ≤ (k.tryAll passphrases).1.bits + 7 := by
  obtain ⟨p, hp, h⟩ := bind_eq_ok.1 h
  obtain ⟨c, -, hk⟩ | ⟨kind', hk⟩ := ofPem_eq_ok h
  · rw [hk.format] at hformat
    cases hformat
  obtain ⟨-, hkind, -⟩ := ofLegacy_eq_ok hk
  obtain rfl : kind' = kind := KeyFormat.legacy.inj (hkind.symm.trans hformat)
  obtain ⟨body, half, hopens, hbody, hhalf, hpublic, -⟩ := tryAll_of_ofLegacy hk passphrases hu
  obtain ⟨version, modulus, more, hints, hbits⟩ := Legacy.bits_of_decode hbody hhalf
  have rounded : (k.tryAll passphrases).1.bits = 8 * ((Bytes.toNat modulus).size / 8) := by
    simp only [bits, hpublic]
    rw [hbits, Mpint.length_ofMagnitude, Nat.mul_comm]
  refine ⟨p, body, version, modulus, more, hp, hopens, hbody, hints, rounded, ?_, ?_, ?_⟩
  · intro whole
    rw [rounded, Nat.mul_div_cancel' whole]
  · rw [rounded]
    exact Nat.mul_div_le _ _
  · omega

/-- The body of a DSA key whose prime has nine bits and a zero in front of them. -/
def nineBitBody : Bytes :=
  [0x30, 0x14, 0x02, 0x01, 0x00, 0x02, 0x03, 0x00, 0x01, 0xFF, 0x02, 0x01, 0x0B, 0x02, 0x01, 0x04,
    0x02, 0x01, 0x08, 0x02, 0x01, 0x03]

def nineBitBlock : PemBlock := { label := (KeyFormat.legacy .dsa).label, data := nineBitBody }

def nineBitText : Bytes := Utf8.encode (nineBitBlock.encode lineWidth)

def nineBitPrivate : PrivateKey where
  type := .dss
  preamble := []
  parts := [[1, 0xFF], [11], [4], [8], [3]]

def nineBitKey : Key :=
  plainLegacy .dsa { type := .dss, parts := [[1, 0xFF], [11], [4], [8]] } nineBitPrivate

theorem written_nineBitText : nineBitBlock.Written nineBitText :=
  PemBlock.written_encode (p := nineBitBlock) (List.all_iff_forall_prop.1 (by decide)) lineWidth

theorem decode_nineBitBody : Legacy.decode .dsa nineBitBody = .ok nineBitPrivate := rfl

theorem parse_nineBitText : parse nineBitText = .ok nineBitKey :=
  parse_of_written_plain decode_nineBitBody rfl written_nineBitText

theorem nineBitKey_bits : parse nineBitText = .ok nineBitKey ∧ nineBitKey.format = .legacy .dsa ∧
    Der.integersOf nineBitBody 6 6 = .ok [[0], [0, 1, 0xFF], [11], [4], [8], [3]] ∧
      (Bytes.toNat [0, 1, 0xFF]).size = 9 ∧ nineBitKey.bits = 8 := by
  have ints : Der.integersOf nineBitBody 6 6 = .ok [[0], [0, 1, 0xFF], [11], [4], [8], [3]] := rfl
  have nine : (Bytes.toNat [0, 1, 0xFF]).size = 9 := by decide
  obtain ⟨p, body, version, modulus, more, hp, hopens, -, hints, rounded, -⟩ :=
    bits_of_parse parse_nineBitText rfl [] rfl
  have block : PemBlock.parse nineBitText = .ok nineBitBlock :=
    written_nineBitText.parse_eq (Legacy.isLabel_legacy .dsa) (by simp [nineBitBlock]) (by decide)
  obtain rfl : p = nineBitBlock := Except.ok.inj (hp.symm.trans block)
  obtain rfl : body = nineBitBody := hopens
  obtain ⟨rfl, rfl, rfl⟩ : [0] = version ∧ [0, 1, 0xFF] = modulus ∧
      [[11], [4], [8], [3]] = more := by
    simpa [Legacy.Kind.most, ints] using hints
  rw [nine] at rounded
  exact ⟨parse_nineBitText, rfl, ints, nine, rounded⟩

end SshKeyring.Key
