import SshKeyring.Proofs.Key.Lifecycle
import SshKeyring.Proofs.Pem

/-! A key that is written as an unencrypted text is read back from it, in its new format but with
the halves and the comment that it had. -/

namespace SshKeyring.Key

open Wire

theorem publicKey_eq_ok_iff {k : Key} {publicKey : PublicKey} :
    k.publicKey = .ok publicKey ↔ k.publicHalf = some publicKey := by
  unfold Key.publicKey
  cases k.publicHalf <;> simp

theorem privateKey_eq_ok_iff {k : Key} {privateKey : PrivateKey} :
    k.privateKey = .ok privateKey ↔ k.secret = .unlocked privateKey := by
  unfold Key.privateKey
  cases k.secret <;> simp

theorem publicBlob_eq_ok_iff {k : Key} {blob : Bytes} : k.publicBlob = .ok blob ↔
    ∃ publicKey, k.publicHalf = some publicKey ∧ publicKey.encode = .ok blob := by
  simp only [publicBlob, bind_eq_ok, publicKey_eq_ok_iff, PublicKey.blob, mapError_eq_ok]

/-- The block that an unlocked key is written to. -/
theorem toBlock_eq {k : Key} {publicKey : PublicKey} {privateKey : PrivateKey}
    (hp : k.publicHalf = some publicKey) (hu : k.secret = .unlocked privateKey) {check : UInt32}
    {body : Bytes} (hs : PrivateSection.encode ⟨privateKey, k.comment⟩ check = .ok body)
    (hl : publicKey.wire.length ≤ maxLength) (hb : body.length ≤ maxLength) :
    k.toBlock check =
      .ok { label := KeyFormat.openSsh.label, data := (Container.plain publicKey body).wire } := by
  simp only [toBlock, Container.encodePlain, bind_eq_ok, mapError_eq_ok, publicKey_eq_ok_iff,
    privateKey_eq_ok_iff]
  exact ⟨publicKey, hp, privateKey, hu, _, ⟨body, hs, Container.encode_plain hl hb⟩, rfl⟩

theorem ofContainer_plain {publicKey : PublicKey} {body : Bytes} {s : PrivateSection}
    (hs : PrivateSection.decode publicKey.type body = .ok s) :
    ofContainer (Container.plain publicKey body) =
      .ok {
        type := publicKey.type, format := .openSsh, publicHalf := some publicKey,
        comment := s.comment, cipher := noneName, kdf := noneName, kdfOptions := [],
        secret := .unlocked s.privateKey } := by
  simp only [ofContainer, Container.plain, if_pos, bind_eq_ok]
  exact ⟨s, hs, rfl⟩

/-- A key read back from the block that it was written to. -/
theorem ofPem_toBlock {k : Key} (hk : k.WellFormed) {publicKey : PublicKey}
    {privateKey : PrivateKey} (hp : k.publicHalf = some publicKey)
    (hu : k.secret = .unlocked privateKey) {check : UInt32} {body : Bytes}
    (hs : PrivateSection.encode ⟨privateKey, k.comment⟩ check = .ok body)
    (hl : publicKey.wire.length ≤ maxLength) (hb : body.length ≤ maxLength) :
    ofPem { label := KeyFormat.openSsh.label, data := (Container.plain publicKey body).wire } =
      .ok { k with format := .openSsh, cipher := noneName, kdf := noneName, kdfOptions := [] } := by
  obtain ⟨hpt, hpw⟩ := hk.publicHalf_some publicKey hp
  obtain ⟨hut, huw⟩ := hk.unlocked privateKey hu
  have opened : PrivateSection.decode publicKey.type body = .ok ⟨privateKey, k.comment⟩ := by
    have back := PrivateSection.decode_encode (s := ⟨privateKey, k.comment⟩) huw hs hb
    rwa [hut, ← hpt] at back
  have label : KeyFormat.ofLabel? KeyFormat.openSsh.label = some .openSsh := by decide
  simp only [ofPem, label, bind_eq_ok]
  refine ⟨_, Container.decode_wire_plain hpw hl hb, ?_⟩
  rw [ofContainer_plain opened, hpt, hp, hu]

/-- The label of a block that a key is written to is fit for its boundary rows. -/
theorem isLabel_openSsh : PemBlock.IsLabel KeyFormat.openSsh.label.toList := by decide

theorem written_encode_openSsh (data : Bytes) (width : Nat) :
    PemBlock.Written { label := KeyFormat.openSsh.label, data }
      (Utf8.encode (PemBlock.encode { label := KeyFormat.openSsh.label, data } width)) := by
  have plain : ∀ c ∈ KeyFormat.openSsh.label.toList, PemBlock.IsPlain c :=
    List.all_iff_forall_prop.1 (by decide)
  exact PemBlock.written_encode (p := ⟨KeyFormat.openSsh.label, [], data⟩) plain width

theorem parse_encode_openSsh {data : Bytes} (hd : data ≠ []) (width : Nat) :
    PemBlock.parse (Utf8.encode
      (PemBlock.encode { label := KeyFormat.openSsh.label, data } width)) =
        .ok { label := KeyFormat.openSsh.label, data } :=
  (written_encode_openSsh data width).parse_eq isLabel_openSsh (by simp) hd

/-- A key read back from the text of an unencrypted container that holds it. -/
theorem parse_plain {k : Key} (hk : k.WellFormed) {publicKey : PublicKey} {privateKey : PrivateKey}
    (hp : k.publicHalf = some publicKey) (hu : k.secret = .unlocked privateKey) {check : UInt32}
    {body : Bytes} (hs : PrivateSection.encode ⟨privateKey, k.comment⟩ check = .ok body)
    (hl : publicKey.wire.length ≤ maxLength) (hb : body.length ≤ maxLength) :
    parse (Utf8.encode (PemBlock.encode
      { label := KeyFormat.openSsh.label, data := (Container.plain publicKey body).wire }
        lineWidth)) =
      .ok { k with format := .openSsh, cipher := noneName, kdf := noneName, kdfOptions := [] } := by
  have nonempty : (Container.plain publicKey body).wire ≠ [] := by
    simp [Container.wire, Container.magic]
  exact bind_eq_ok.2
    ⟨_, parse_encode_openSsh nonempty lineWidth, ofPem_toBlock hk hp hu hs hl hb⟩

/-- An unlocked key that is written as an unencrypted text is read back from it with its halves
and its comment, if readers take strings as long as its public blob and its private section. -/
theorem parse_toPem {k : Key} (hk : k.WellFormed) {privateKey : PrivateKey}
    (hu : k.secret = .unlocked privateKey) (check : UInt32) {blob body : Bytes}
    (hblob : k.publicBlob = .ok blob) (hl : blob.length ≤ maxLength)
    (hs : PrivateSection.encode ⟨privateKey, k.comment⟩ check = .ok body)
    (hb : body.length ≤ maxLength) :
    ∃ text, k.toPem check = .ok text ∧ parse (Utf8.encode text) =
      .ok { k with format := .openSsh, cipher := "none", kdf := "none", kdfOptions := [] } := by
  obtain ⟨publicKey, hp, he⟩ := publicBlob_eq_ok_iff.1 hblob
  obtain ⟨-, rfl⟩ := PublicKey.encode_eq_ok_iff.1 he
  have nonempty : (Container.plain publicKey body).wire ≠ [] := by
    simp [Container.wire, Container.magic]
  have block := toBlock_eq hp hu hs hl hb
  have back := parse_encode_openSsh nonempty lineWidth
  exact ⟨_, bind_eq_ok.2 ⟨_, block, rfl⟩,
    bind_eq_ok.2 ⟨_, back, ofPem_toBlock hk hp hu hs hl hb⟩⟩

/-- The strings in front of the parts of `securityKey`. -/
def securityStrings : List Bytes := [Utf8.encode "nistp256", [4, 5, 6], Utf8.encode "ssh:"]

def securityPublic : PublicKey := { type := .skEcdsaP256, parts := securityStrings }

/-- A security key that was encrypted and is unlocked. -/
def securityKey : Key where
  type := .skEcdsaP256
  format := .openSsh
  publicHalf := some securityPublic
  comment := "touch"
  cipher := "aes256-ctr"
  kdf := bcryptName
  kdfOptions := stringBytes [1, 2] ++ putWord 16
  secret := .unlocked
    { type := .skEcdsaP256, preamble := securityStrings.flatMap stringBytes ++ [1],
      parts := [[7, 8, 9], []] }

theorem securityKey_parse_toPem : securityKey.WellFormed ∧
    ∃ text, securityKey.toPem 0x01020304 = .ok text ∧ parse (Utf8.encode text) =
      .ok { securityKey with
        format := .openSsh, cipher := "none", kdf := "none", kdfOptions := [] } := by
  have preamble : PrivateKey.IsPreamble (securityStrings.flatMap stringBytes ++ [1]) :=
    ⟨securityStrings, 1, rfl, by decide +kernel, rfl⟩
  have wellFormed : securityKey.WellFormed :=
    wellFormed_of_halves rfl rfl ⟨rfl, rfl⟩ ⟨rfl, PrivateKey.wellFormed_iff.2 ⟨rfl, preamble⟩⟩
      (by simp [securityKey])
  have short : ∀ b ∈ securityPublic.parts, b.length < countLimit := by decide +kernel
  have blob : securityKey.publicBlob = .ok securityPublic.wire :=
    publicBlob_eq_ok_iff.2 ⟨securityPublic, rfl, PublicKey.encode_eq_ok_iff.2 ⟨short, rfl⟩⟩
  exact ⟨wellFormed,
    parse_toPem wellFormed rfl 0x01020304 blob (by decide +kernel) (by rfl) (by decide +kernel)⟩

end SshKeyring.Key
