import SshKeyring.Proofs.Key.Halves
import SshKeyring.Proofs.Text.Base64
import SshKeyring.Proofs.Text.Hex

/-! What a fingerprint tells apart. No two keys have the same blob, and no rendering makes two
digests look alike. So two keys share a fingerprint only where the hash gives their two blobs one
digest. Nothing is assumed of the hash. -/

namespace SshKeyring

open Wire

namespace HashAlgorithm

/-- Two messages with one digest. -/
def Collides (h : HashAlgorithm) (x y : Bytes) : Prop := x ≠ y ∧ h.digest x = h.digest y

instance (h : HashAlgorithm) (x y : Bytes) : Decidable (h.Collides x y) :=
  inferInstanceAs (Decidable (_ ∧ _))

/-- No two digests are rendered alike. -/
theorem render_inj (h : HashAlgorithm) {d e : Bytes} : h.render d = h.render e ↔ d = e := by
  cases h with
  | md5 => rw [render, render, String.append_right_inj, String.ofList_inj, Hex.encodeColons_inj]
  | sha256 =>
    rw [render, render, String.append_right_inj, String.ofList_inj, Base64.encodeUnpadded_inj]
  | sha512 => rw [render, render, String.append_right_inj, String.ofList_inj, Hex.encode_inj]

/-- Digests are the same just if the messages are or collide. -/
theorem digest_eq_iff (h : HashAlgorithm) {x y : Bytes} :
    h.digest x = h.digest y ↔ x = y ∨ h.Collides x y := by
  by_cases hxy : x = y
  · simp [hxy]
  · simp [hxy, Collides]

end HashAlgorithm

namespace PublicKey

theorem blob_of_short {k : PublicKey} (hk : ∀ p ∈ k.parts, p.length < countLimit) :
    k.blob = .ok k.wire :=
  mapError_eq_ok.2 (encode_eq_ok_iff.2 ⟨hk, rfl⟩)

theorem fingerprint_of_short {k : PublicKey} (hk : ∀ p ∈ k.parts, p.length < countLimit)
    (h : HashAlgorithm) : k.fingerprint h = .ok (h.render (h.digest k.wire)) :=
  bind_eq_ok.2 ⟨_, blob_of_short hk, rfl⟩

/-- Two keys have the same fingerprint just if they are the same key or their blobs, which then
differ, have one digest. Whatever is changed about a key, be it the type, a part, the order or the
number of the parts or where one of them ends, what is hashed changes, and no rendering makes two
digests look alike. -/
theorem fingerprint_eq_iff {a b : PublicKey} (ha : ∀ p ∈ a.parts, p.length < countLimit)
    (hb : ∀ p ∈ b.parts, p.length < countLimit) (h : HashAlgorithm) :
    (∀ d e, h.render d = h.render e ↔ d = e) ∧
      ∃ x y s t, a.blob = .ok x ∧ b.blob = .ok y ∧ a.fingerprint h = .ok s ∧
        b.fingerprint h = .ok t ∧ (x = y ↔ a = b) ∧ (s = t ↔ a = b ∨ h.Collides x y) := by
  refine ⟨fun d e => h.render_inj, a.wire, b.wire, _, _, blob_of_short ha, blob_of_short hb,
    fingerprint_of_short ha h, fingerprint_of_short hb h, wire_inj ha hb, ?_⟩
  rw [h.render_inj, h.digest_eq_iff, wire_inj ha hb]

/-- Two keys that differ in where the first part ends. -/
def longExponent : PublicKey := { type := .rsa, parts := [[1, 2], [3]] }

def longModulus : PublicKey := { type := .rsa, parts := [[1], [2, 3]] }

theorem fingerprint_longExponent_ne :
    (∀ p ∈ longExponent.parts, p.length < countLimit) ∧
      (∀ p ∈ longModulus.parts, p.length < countLimit) ∧
      ∃ x y s t, longExponent.blob = .ok x ∧ longModulus.blob = .ok y ∧
        longExponent.fingerprint .sha256 = .ok s ∧ longModulus.fingerprint .sha256 = .ok t ∧
          x ≠ y ∧ (s = t ↔ HashAlgorithm.sha256.Collides x y) := by
  have short : ∀ p ∈ longExponent.parts, p.length < countLimit := by decide
  have short' : ∀ p ∈ longModulus.parts, p.length < countLimit := by decide
  have apart : longExponent ≠ longModulus := by decide
  obtain ⟨-, x, y, s, t, hx, hy, hs, ht, blobs, texts⟩ := fingerprint_eq_iff short short' .sha256
  exact ⟨short, short', x, y, s, t, hx, hy, hs, ht, mt blobs.1 apart,
    texts.trans (or_iff_right apart)⟩

end PublicKey

end SshKeyring
