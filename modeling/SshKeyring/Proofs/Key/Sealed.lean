import SshKeyring.Proofs.Cipher.Mode
import SshKeyring.Proofs.Derive
import SshKeyring.Proofs.Key.Grammar
import SshKeyring.Proofs.Key.Identity

/-! Containers whose private section is encrypted. The cipher's key and, after it, its initial
vector are cut from the key material that bcrypt makes of a passphrase; with that passphrase the
section is found again, whatever it was padded with. -/

namespace SshKeyring

open Wire

namespace Container

/-- A container whose private section is encrypted under key material. -/
def sealed (cipher : String) (kind : CipherKind) (derived kdfOptions : Bytes)
    (publicKey : PublicKey) (text : Bytes) : Container where
  cipher
  kdf := bcryptName
  kdfOptions
  publicKey
  body := kind.encrypt (derived.take kind.keySize) (derived.drop kind.keySize) text

/-- Every cipher takes as much key material as bcrypt makes. -/
theorem material_le (kind : CipherKind) : kind.keySize + blockSize ≤ Bcrypt.maxLength := by
  cases kind <;> decide

theorem material_pos (kind : CipherKind) : 0 < kind.keySize + blockSize :=
  Nat.lt_of_lt_of_le blockSize_pos (Nat.le_add_left _ _)

/-- Key material that bcrypt makes of the passphrase is cut into the cipher's key and its initial
vector. -/
theorem decrypt_of_derived {cipher : String} {kind : CipherKind}
    (hkind : CipherKind.ofName? cipher = some kind) {passphrase : String} (hp : passphrase ≠ "")
    {options : KdfOptions} {kdfOptions : Bytes} (ho : KdfOptions.ofBytes kdfOptions = .ok options)
    {derived : Bytes}
    (hd : Bcrypt.derive (Utf8.encode passphrase) options.salt options.rounds.toNat
      (kind.keySize + blockSize) = .ok derived)
    (hl : derived.length = kind.keySize + blockSize) (body : Bytes) :
    decrypt cipher bcryptName kdfOptions body passphrase =
      Decryptor.decrypt { kind, key := derived.take kind.keySize, iv := derived.drop kind.keySize }
        body := by
  have given : passphrase.isEmpty = false := by simpa using hp
  have key : (derived.take kind.keySize).length = kind.keySize := by
    rw [List.length_take]
    omega
  have vector : (derived.drop kind.keySize).length = blockSize := by
    rw [List.length_drop]
    omega
  simp only [decrypt, hkind, ne_eq, not_true_eq_false, if_false, given, Bool.false_eq_true, ho, hd,
    Decryptor.ofKey_eq_ok key vector, bind, Except.bind]

theorem decrypt_sealed {cipher : String} {kind : CipherKind}
    (hkind : CipherKind.ofName? cipher = some kind) {passphrase : String} (hp : passphrase ≠ "")
    {options : KdfOptions} {kdfOptions : Bytes} (ho : KdfOptions.ofBytes kdfOptions = .ok options)
    {derived : Bytes}
    (hd : Bcrypt.derive (Utf8.encode passphrase) options.salt options.rounds.toNat
      (kind.keySize + blockSize) = .ok derived)
    (hl : derived.length = kind.keySize + blockSize) {text : Bytes}
    (ht : kind.isCbc → text.length % blockSize = 0) (publicKey : PublicKey) :
    decrypt cipher bcryptName kdfOptions
      (sealed cipher kind derived kdfOptions publicKey text).body passphrase = .ok text := by
  rw [decrypt_of_derived hkind hp ho hd hl]
  exact Decryptor.decrypt_encrypt ht _ _

theorem length_bcryptName : (Utf8.encode bcryptName).length ≤ maxLength := by decide

section

variable {cipher : String} {kind : CipherKind} {derived kdfOptions text : Bytes}
  {publicKey : PublicKey}

theorem length_body_sealed (ht : kind.isCbc → text.length % blockSize = 0) :
    (sealed cipher kind derived kdfOptions publicKey text).body.length = text.length :=
  CipherKind.length_encrypt ht _ _

theorem encode_sealed (hc : (Utf8.encode cipher).length ≤ maxLength)
    (ho : kdfOptions.length ≤ maxLength) (hk : publicKey.wire.length ≤ maxLength)
    (ht : kind.isCbc → text.length % blockSize = 0) (hl : text.length ≤ maxLength) :
    (sealed cipher kind derived kdfOptions publicKey text).encode =
      .ok (sealed cipher kind derived kdfOptions publicKey text).wire := by
  have parts : ∀ b ∈ publicKey.parts, b.length < countLimit := fun b hb =>
    lt_countLimit (Nat.le_trans (PublicKey.length_le_of_mem_parts hb) hk)
  rw [← length_body_sealed ht] at hl
  exact encode_eq_ok_iff.2 ⟨lt_countLimit hc, lt_countLimit length_bcryptName, lt_countLimit ho,
    lt_countLimit hk, parts, lt_countLimit hl, rfl⟩

theorem decode_wire_sealed (hw : publicKey.WellFormed)
    (hc : (Utf8.encode cipher).length ≤ maxLength) (ho : kdfOptions.length ≤ maxLength)
    (hk : publicKey.wire.length ≤ maxLength) (ht : kind.isCbc → text.length % blockSize = 0)
    (hl : text.length ≤ maxLength) :
    decode (sealed cipher kind derived kdfOptions publicKey text).wire =
      .ok (sealed cipher kind derived kdfOptions publicKey text) := by
  rw [← length_body_sealed ht] at hl
  exact decode_wire hw hc length_bcryptName ho hk hl

end

end Container

namespace Key

theorem opened_lockedBy (c : Container) (s : PrivateSection) :
    (lockedBy c).opened c.publicKey s =
      { lockedBy c with comment := s.comment, secret := .unlocked s.privateKey } := by
  have comment : (if s.comment.isEmpty then "" else s.comment) = s.comment := by
    split
    · next empty => exact (String.isEmpty_iff.1 empty).symm
    · rfl
  simp only [Key.opened, lockedBy, comment]

/-- A text in which a container is written down is read as the container. -/
theorem parse_of_written_openSsh {c : Container} (hc : Container.decode c.wire = .ok c)
    {text : Bytes}
    (ht : PemBlock.Written { label := KeyFormat.openSsh.label, data := c.wire } text) :
    parse text = ofContainer c := by
  have nonempty : c.wire ≠ [] := by simp [Container.wire, Container.magic]
  have format : KeyFormat.ofLabel? KeyFormat.openSsh.label = some .openSsh := by decide
  have block := ht.parse_eq isLabel_openSsh (by simp) nonempty
  simp only [parse, block, bind, Except.bind, ofPem, format, hc]

/-- The container of an encrypted private section is read as a locked key that shows its public
half, and the passphrase that the section was encrypted with finds the private half and the
comment. -/
theorem tryUnlock_sealed {s : PrivateSection} (hs : s.privateKey.WellFormed)
    {publicKey : PublicKey} (hpub : s.privateKey.publicKey = .ok publicKey) {passphrase : String}
    (hp : passphrase ≠ "") {options : KdfOptions} (hsalt : options.salt ≠ [])
    (hrounds : options.rounds ≠ 0) {cipher : String} {kind : CipherKind}
    (hkind : CipherKind.ofName? cipher = some kind) {check : UInt32} (padding : Bytes)
    {kdfOptions blob bare : Bytes} (ho : options.encode = .ok kdfOptions)
    (hblob : publicKey.encode = .ok blob) (hbare : s.encodeBare check = .ok bare)
    (hwhole : kind.isCbc → (bare ++ padding).length % blockSize = 0)
    (hcl : (Utf8.encode cipher).length ≤ maxLength) (hol : kdfOptions.length ≤ maxLength)
    (hbl : blob.length ≤ maxLength) (hl : (bare ++ padding).length ≤ maxLength) :
    ∃ derived data locked,
      Bcrypt.derive (Utf8.encode passphrase) options.salt options.rounds.toNat
        (kind.keySize + blockSize) = .ok derived ∧
      (Container.sealed cipher kind derived kdfOptions publicKey (bare ++ padding)).encode =
        .ok data ∧
      (∀ text, PemBlock.Written { label := KeyFormat.openSsh.label, data } text →
        parse text = .ok locked) ∧
      locked.isLocked ∧ locked.publicKey = .ok publicKey ∧
      locked.tryUnlock passphrase =
        ({ locked with comment := s.comment, secret := .unlocked s.privateKey }, .ok ()) := by
  obtain ⟨htype, hwf⟩ := PrivateKey.publicKey_eq_ok hs hpub
  obtain ⟨-, rfl⟩ := PublicKey.encode_eq_ok_iff.1 hblob
  obtain rfl := PrivateSection.encodeBare_eq_ok hbare
  have rounds : options.rounds.toNat ≠ 0 := fun h => hrounds (UInt32.toNat_inj.1 h)
  obtain ⟨derived, hd, hdl⟩ := Bcrypt.exists_derive (Utf8.encode_ne_nil hp) hsalt rounds
    (Container.material_pos kind) (Container.material_le kind)
  let c := Container.sealed cipher kind derived kdfOptions publicKey (s.wire check ++ padding)
  -- no cipher has the name that stands for none, so the section is not read at once
  have named : c.cipher ≠ noneName := by
    rintro (rfl : cipher = noneName)
    cases hkind
  have back : Container.decode c.wire = .ok c :=
    Container.decode_wire_sealed hwf hcl hol hbl hwhole hl
  have opened : Container.decrypt cipher bcryptName kdfOptions c.body passphrase =
      .ok (s.wire check ++ padding) :=
    Container.decrypt_sealed hkind hp (KdfOptions.ofBytes_encode ho hol) hd hdl hwhole publicKey
  have found : PrivateSection.decode publicKey.type (s.wire check ++ padding) = .ok s := by
    rw [htype]
    exact PrivateSection.decode_wire_append hs hl
  have secret : (lockedBy c).openSecret c.body [] passphrase = .ok s :=
    bind_eq_ok.2 ⟨_, opened, found⟩
  refine ⟨derived, c.wire, lockedBy c, hd, Container.encode_sealed hcl hol hbl hwhole hl,
    fun text ht => ?_, rfl, rfl, ?_⟩
  · rw [parse_of_written_openSsh back ht, ofContainer_of_encrypted named]
  · rw [tryUnlock_of_openSecret rfl secret rfl, opened_lockedBy]

/-- The public half of `twos`. -/
def twosPublic : PublicKey := { type := .ed25519, parts := [List.replicate 32 2] }

def twosSection : PrivateSection := { privateKey := twos, comment := "é" }

/-- That section with 7 for its check integers, and eleven zeros behind it. -/
def twosPadded : Bytes := twosSection.wire 7 ++ List.replicate 11 0

/-- The options of a salt of one byte and one round. -/
def saltOne : Bytes := stringBytes [1] ++ putWord 1

theorem twos_tryUnlock_sealed :
    ∃ derived data locked,
      Bcrypt.derive (Utf8.encode "sesame") [1] 1 48 = .ok derived ∧
      (Container.sealed "AES-256-CBC" .aes256Cbc derived saltOne twosPublic twosPadded).encode =
        .ok data ∧
      parse (Utf8.encode (PemBlock.encode { label := KeyFormat.openSsh.label, data } lineWidth)) =
        .ok locked ∧
      locked.isLocked ∧ locked.publicKey = .ok twosPublic ∧
      locked.tryUnlock "sesame" =
        ({ locked with comment := "é", secret := .unlocked twos }, .ok ()) := by
  have half : twosSection.privateKey.WellFormed ∧
      twosSection.privateKey.publicKey = .ok twosPublic := ⟨⟨rfl, rfl⟩, rfl⟩
  have salted : KdfOptions.salt ⟨[1], 1⟩ ≠ [] ∧ KdfOptions.rounds ⟨[1], 1⟩ ≠ 0 := by decide
  have kind : CipherKind.ofName? "AES-256-CBC" = some .aes256Cbc := by decide
  have options : KdfOptions.encode ⟨[1], 1⟩ = .ok saltOne := by rfl
  have blob : twosPublic.encode = .ok twosPublic.wire := by rfl
  have bare : twosSection.encodeBare 7 = .ok (twosSection.wire 7) := by rfl
  obtain ⟨derived, data, locked, hd, he, hparse, rest⟩ :=
    tryUnlock_sealed half.1 half.2 (by decide : "sesame" ≠ "") salted.1 salted.2 kind
      (List.replicate 11 0) options blob bare (by decide +kernel) (by decide +kernel)
      (by decide +kernel) (by decide +kernel) (by decide +kernel)
  exact ⟨derived, data, locked, hd, he, hparse _ (written_encode_openSsh data lineWidth), rest⟩

end Key

end SshKeyring
