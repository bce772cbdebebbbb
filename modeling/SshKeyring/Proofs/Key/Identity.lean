import SshKeyring.Proofs.Key.RoundTrip

/-! The public half that an unlocked key goes by. A traditional key has one copy of it, worked out
from the private half. A container has two, of which its first public key is the one that counts:
the copy in the private section has to be of the same type, but may be another key's. -/

namespace SshKeyring

/-- The private section of a container as plain text, opened with one of the passphrases if it is
encrypted. -/
def Container.Opens (c : Container) (passphrases : List String) (text : Bytes) : Prop :=
  if c.cipher = noneName then text = c.body
  else ∃ passphrase ∈ passphrases, decrypt c.cipher c.kdf c.kdfOptions c.body passphrase = .ok text

/-- The body of a traditional block as plain text, opened with one of the passphrases if the headers
say that it is encrypted. -/
def Legacy.Opens (p : PemBlock) (passphrases : List String) (text : Bytes) : Prop :=
  if isEncrypted p then ∃ cipher iv, encryption p = .ok (cipher, iv) ∧
    ∃ passphrase ∈ passphrases, decrypt cipher iv p.data passphrase = .ok text
  else text = p.data

namespace Key

/-- A key from a container goes by the container's first public key and has the private half of its
private section. -/
theorem ReadFrom.tryAll {k : Key} {c : Container} (h : k.ReadFrom c) (passphrases : List String)
    {privateKey : PrivateKey} (hu : (k.tryAll passphrases).1.secret = .unlocked privateKey) :
    (k.tryAll passphrases).1.publicHalf = some c.publicKey ∧
      ∃ text s, c.Opens passphrases text ∧ PrivateSection.decode c.publicKey.type text = .ok s ∧
        privateKey = s.privateKey := by
  by_cases hcipher : c.cipher = noneName
  · obtain ⟨s, hs, hsecret⟩ := h.unencrypted hcipher
    rw [tryAll_fst_of_unlocked hsecret] at hu ⊢
    rw [hsecret] at hu
    cases hu
    exact ⟨h.publicHalf, c.body, s, by rw [Container.Opens, if_pos hcipher], hs, rfl⟩
  · have hsecret := h.encrypted hcipher
    obtain same | ⟨passphrase, hm, s, publicKey, hs, hp, he⟩ :=
      tryAll_fst_of_locked hsecret passphrases
    · rw [same, hsecret] at hu
      cases hu
    · rw [he] at hu ⊢
      cases hu
      obtain ⟨text, ht, hs⟩ : ∃ text,
          Container.decrypt k.cipher k.kdf k.kdfOptions c.body passphrase = .ok text ∧
            PrivateSection.decode k.type text = .ok s := by
        simpa only [openSecret, h.format, bind_eq_ok] using hs
      rw [h.cipher, h.kdf, h.kdfOptions] at ht
      rw [h.type] at hs
      have known : c.publicKey = publicKey := by simpa [publicHalfWith, h.publicHalf] using hp
      refine ⟨by rw [known]; rfl, text, s, ?_, hs, rfl⟩
      rw [Container.Opens, if_neg hcipher]
      exact ⟨passphrase, hm, ht⟩

/-- A traditional key whose private half is known has that of its body and the public half of that,
and no comment. -/
theorem tryAll_of_ofLegacy {kind : Legacy.Kind} {p : PemBlock} {k : Key}
    (h : ofLegacy kind p = .ok k) (passphrases : List String) {privateKey : PrivateKey}
    (hu : (k.tryAll passphrases).1.secret = .unlocked privateKey) :
    ∃ text publicKey, Legacy.Opens p passphrases text ∧ Legacy.decode kind text = .ok privateKey ∧
      privateKey.publicKey = .ok publicKey ∧
        (k.tryAll passphrases).1.publicHalf = some publicKey ∧
          (k.tryAll passphrases).1.comment = "" := by
  obtain ⟨-, hformat, hcomment, ⟨hp, iv, hencryption, hnone, hsecret⟩ |
    ⟨hp, key, publicKey, hd, hpub, hhalf, hsecret⟩⟩ := ofLegacy_eq_ok h
  · obtain same | ⟨passphrase, hm, s, publicKey, hs, hpub, he⟩ :=
      tryAll_fst_of_locked hsecret passphrases
    · rw [same, hsecret] at hu
      cases hu
    · rw [he] at hu ⊢
      cases hu
      simp only [openSecret, hformat, bind_eq_ok] at hs
      obtain ⟨text, htext, hs⟩ := hs
      cases hd : Legacy.decode kind text with
      | error e =>
        rw [hd] at hs
        cases hs
      | ok key =>
        rw [hd] at hs
        cases hs
        simp only [publicHalfWith, hnone] at hpub
        refine ⟨text, publicKey, ?_, hd, hpub, rfl, hcomment⟩
        rw [Legacy.Opens, if_pos hp]
        exact ⟨k.cipher, iv, hencryption, passphrase, hm, htext⟩
  · rw [tryAll_fst_of_unlocked hsecret] at hu ⊢
    rw [hsecret] at hu
    cases hu
    exact ⟨p.data, publicKey, by simp [Legacy.Opens, hp], hd, hpub, hhalf, hcomment⟩

/-- A traditional key goes by the public half of its private one. -/
theorem publicHalf_of_ofLegacy {kind : Legacy.Kind} {p : PemBlock} {k : Key}
    (h : ofLegacy kind p = .ok k) (passphrases : List String) {privateKey : PrivateKey}
    (hu : (k.tryAll passphrases).1.secret = .unlocked privateKey) :
    ∃ publicKey, privateKey.publicKey = .ok publicKey ∧
      (k.tryAll passphrases).1.publicHalf = some publicKey := by
  obtain ⟨-, publicKey, -, -, hpub, hhalf, -⟩ := tryAll_of_ofLegacy h passphrases hu
  exact ⟨publicKey, hpub, hhalf⟩

/-- Where the two public halves of an unlocked key come from. The one worked out from the private
half has the type of the one the key goes by. They are the same in a traditional key, and in a key
from a container just if the container's two copies agree. -/
theorem publicKey_of_parse {text : Bytes} {k : Key} (h : parse text = .ok k)
    (passphrases : List String) {privateKey : PrivateKey}
    (hu : (k.tryAll passphrases).1.secret = .unlocked privateKey) :
    ∃ stored derived, (k.tryAll passphrases).1.publicKey = .ok stored ∧
      privateKey.publicKey = .ok derived ∧ stored.type = derived.type ∧
        (k.format ≠ .openSsh → stored = derived) ∧
        (k.format = .openSsh → ∃ p c body s, PemBlock.parse text = .ok p ∧
          Container.decode p.data = .ok c ∧ stored = c.publicKey ∧ c.Opens passphrases body ∧
            PrivateSection.decode c.publicKey.type body = .ok s ∧ privateKey = s.privateKey ∧
              (stored = derived ↔ s.privateKey.publicKey = .ok c.publicKey)) := by
  have created : k.Created := .ofText h
  obtain ⟨p, hp, h⟩ := bind_eq_ok.1 h
  have final : (k.tryAll passphrases).1.WellFormed := by
    rw [tryAll_fst]
    exact (actAll_sound created.wellFormed _).1
  obtain ⟨htype, hwf⟩ := final.unlocked privateKey hu
  obtain ⟨derived, hd, hdt, -⟩ := PrivateKey.exists_publicKey hwf
  obtain ⟨c, hc, hk⟩ | ⟨kind, hk⟩ := ofPem_eq_ok h
  · obtain ⟨hpub, body, s, hopen, hs, rfl⟩ := hk.tryAll passphrases hu
    obtain ⟨hst, -⟩ := final.publicHalf_some _ hpub
    refine ⟨c.publicKey, derived, publicKey_eq_ok_iff.2 hpub, hd,
      hst.trans (hdt.trans htype).symm, fun hne => absurd hk.format hne, fun _ => ?_⟩
    refine ⟨p, c, body, s, hp, hc, rfl, hopen, hs, rfl, ?_⟩
    rw [hd, Except.ok.injEq, eq_comm]
  · obtain ⟨publicKey, hpk, hpub⟩ := publicHalf_of_ofLegacy hk passphrases hu
    obtain rfl : derived = publicKey := by simpa [hd] using hpk
    obtain ⟨-, hformat, -⟩ := ofLegacy_eq_ok hk
    refine ⟨derived, derived, publicKey_eq_ok_iff.2 hpub, hd, rfl, fun _ => rfl, fun he => ?_⟩
    rw [hformat] at he
    cases he

/-- A public half of ones. -/
def ones : PublicKey := { type := .ed25519, parts := [List.replicate 32 1] }

/-- A private half that starts with a public half of twos. -/
def twos : PrivateKey where
  type := .ed25519
  preamble := []
  parts := [List.replicate 32 2, List.replicate 32 3 ++ List.replicate 32 2]

/-- A key with the halves of two keys. -/
def twoKeys : Key :=
  { type := .ed25519, format := .openSsh, publicHalf := some ones, comment := "",
    cipher := noneName, kdf := noneName, kdfOptions := [], secret := .unlocked twos }

/-- The private section of `twoKeys` with 7 for its check integers. -/
def twoKeysBody : Bytes :=
  PrivateSection.wire ⟨twos, ""⟩ 7 ++ PrivateSection.padding (PrivateSection.wire ⟨twos, ""⟩ 7).length

def twoKeysText : Bytes :=
  Utf8.encode (PemBlock.encode
    { label := KeyFormat.openSsh.label, data := (Container.plain ones twoKeysBody).wire } lineWidth)

theorem parse_twoKeysText : parse twoKeysText = .ok twoKeys := by
  have wellFormed : twoKeys.WellFormed :=
    wellFormed_of_halves rfl rfl ⟨rfl, rfl⟩ ⟨rfl, PrivateKey.wellFormed_iff.2 ⟨rfl, rfl⟩⟩
      (by simp [twoKeys])
  have body : PrivateSection.encode ⟨twos, twoKeys.comment⟩ 7 = .ok twoKeysBody :=
    PrivateSection.encode_eq_ok_iff.2 ⟨by decide, by decide, rfl⟩
  exact parse_plain wellFormed rfl rfl body (by decide +kernel) (by decide +kernel)

theorem twoKeys_publicKey : parse twoKeysText = .ok twoKeys ∧
    ∃ stored derived, (twoKeys.tryAll ["open"]).1.publicKey = .ok stored ∧
      twos.publicKey = .ok derived ∧ stored.type = derived.type := by
  obtain ⟨stored, derived, hs, hd, ht, -⟩ := publicKey_of_parse parse_twoKeysText ["open"] rfl
  exact ⟨parse_twoKeysText, stored, derived, hs, hd, ht⟩

/-- The public half that an unlocked key goes by need not be that of its private half. -/
theorem publicKey_ne_derived :
    ¬ ∀ (text : Bytes) (k : Key), parse text = .ok k → ∀ (passphrases : List String)
      (privateKey : PrivateKey), (k.tryAll passphrases).1.secret = .unlocked privateKey →
        (k.tryAll passphrases).1.publicKey = privateKey.publicKey := by
  intro same
  have halves : twoKeys.publicKey = twos.publicKey := same _ _ parse_twoKeysText [] twos rfl
  exact absurd halves (by decide +kernel)

end Key

end SshKeyring
