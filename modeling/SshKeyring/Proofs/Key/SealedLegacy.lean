import SshKeyring.Proofs.Cipher.Mode
import SshKeyring.Proofs.Derive
import SshKeyring.Proofs.Key.Unlock
import SshKeyring.Proofs.Key.Legacy
import SshKeyring.Proofs.Pem
import SshKeyring.Proofs.Text.Hex

/-! Traditional keys that are encrypted. The headers name the cipher and spell its initial vector,
which salts the chain of digests that the cipher's key is made from; the passphrase finds the key
that the same integers hold in an unencrypted block, whatever they were padded with. -/

namespace SshKeyring

open PemBlock

theorem CipherKind.mem_of_ofName? {name : String} {kind : CipherKind}
    (h : ofName? name = some kind) :
    String.ofList ((name.toList.filter (· ≠ '-')).map Char.toLower) ∈
      ["aes128cbc", "aes256cbc", "aes256ctr"] := by
  unfold ofName? at h
  split at h
  · next e =>
    rw [e]
    decide
  · next e =>
    rw [e]
    decide
  · next e =>
    rw [e]
    decide
  · cases h

/-- The names of ciphers have only letters, digits and hyphens. -/
theorem CipherKind.isNameChar_of_ofName? {name : String} {kind : CipherKind}
    (h : ofName? name = some kind) : ∀ c ∈ name.toList, isNameChar c = true := by
  intro c hc
  by_cases hyphen : c = '-'
  · rw [hyphen]
    decide
  · have capitals : ∀ n < 26, isNameChar (Char.ofNat (65 + n)) = true := by decide
    have plain : ∀ name ∈ ["aes128cbc", "aes256cbc", "aes256ctr"],
        name.toList.all isNameChar = true := by decide
    have lower : c.toLower ∈ (name.toList.filter (· ≠ '-')).map Char.toLower :=
      List.mem_map_of_mem (List.mem_filter.2 ⟨hc, by simpa using hyphen⟩)
    refine of_toLower (P := fun c => isNameChar c = true) (fun n hn _ => capitals n hn) ?_
    exact List.all_eq_true.1 (plain _ (mem_of_ofName? h)) _ (by rwa [String.toList_ofList])

theorem isBlank_of_isNameChar {c : Char} (h : isNameChar c = true) : isBlank c = false := by
  have outside : ∀ n ∈ blanks, isNameChar (Char.ofNat n) = false := by decide
  cases hb : isBlank c with
  | false => rfl
  | true =>
    have blank := outside _ (List.contains_iff_mem.1 hb)
    rw [Char.ofNat_toNat, h] at blank
    cases blank

namespace Legacy

/-- The headers of an encrypted traditional key, with the digits of its initial vector. -/
def headers (cipher digits : String) : List (String × String) :=
  [("Proc-Type", "4,ENCRYPTED"), ("DEK-Info", cipher ++ "," ++ digits)]

/-- The block of an encrypted traditional key. -/
def sealed (kind : Kind) (cipher digits : String) (data : Bytes) : PemBlock where
  label := (KeyFormat.legacy kind).label
  headers := headers cipher digits
  data

theorem isLabel_legacy (kind : Kind) : IsLabel (KeyFormat.legacy kind).label.toList := by
  cases kind <;> decide

theorem isHeader_of_mem_headers (cipher digits : String) :
    ∀ h ∈ headers cipher digits, IsHeader h := by
  have procType : "Proc-Type".toList.all isNameChar = true := by decide
  have dekInfo : "DEK-Info".toList.all isNameChar = true := by decide
  have value : cipher ++ "," ++ digits ≠ "" := by
    intro h
    have empty := congrArg String.toList h
    simp at empty
  intro h hm
  simp only [headers, List.mem_cons, List.not_mem_nil, or_false] at hm
  rcases hm with rfl | rfl
  · exact ⟨by simp, List.all_eq_true.1 procType, by simp⟩
  · exact ⟨by simp, List.all_eq_true.1 dekInfo, value⟩

theorem isEncrypted_sealed (kind : Kind) (cipher digits : String) (data : Bytes) :
    isEncrypted (sealed kind cipher digits data) = true := by
  have found : (sealed kind cipher digits data).header "Proc-Type" = some "4,ENCRYPTED" := rfl
  rw [isEncrypted, found]
  decide

theorem encryption_sealed {cipher digits : String} {iv : Bytes}
    (hc : ∀ c ∈ cipher.toList, isNameChar c = true) (hd : Hex.Spells digits.toList iv)
    (kind : Kind) (data : Bytes) :
    encryption (sealed kind cipher digits data) = .ok (cipher, iv) := by
  have found : (sealed kind cipher digits data).header "DEK-Info" =
      some (cipher ++ "," ++ digits) := rfl
  have chars : (cipher ++ "," ++ digits).toList = cipher.toList ++ ',' :: digits.toList := by
    simp
  have notComma : ∀ c ∈ cipher.toList, decide (c ≠ ',') = true := by
    intro c hm
    rw [decide_eq_true_eq]
    rintro rfl
    exact absurd (hc ',' hm) (by decide)
  have name : (cipher ++ "," ++ digits).toList.takeWhile (· ≠ ',') = cipher.toList := by
    rw [chars, List.takeWhile_append_of_pos notComma, List.takeWhile_cons_of_neg (by simp),
      List.append_nil]
  have vector : (cipher ++ "," ++ digits).toList.dropWhile (· ≠ ',') = ',' :: digits.toList := by
    rw [chars, List.dropWhile_append_of_pos notComma, List.dropWhile_cons_of_neg (by simp)]
  have blankless : trim cipher.toList = cipher.toList :=
    trim_eq_self fun c hm => isBlank_of_isNameChar (hc c hm)
  have read : initialVector (trim digits.toList) = .ok iv := by
    rw [trim_eq_self hd.isBlank_eq_false, initialVector, hd.decodePairs?_eq]
  simp only [encryption, found, name, vector, read, blankless, String.ofList_toList]
  rfl

end Legacy

namespace Key

theorem ofLabel?_legacy (kind : Legacy.Kind) :
    KeyFormat.ofLabel? (KeyFormat.legacy kind).label = some (.legacy kind) := by
  cases kind <;> decide

/-- The key that an encrypted traditional block is read as. -/
def lockedLegacy (kind : Legacy.Kind) (cipher : String) (iv data : Bytes) : Key where
  type := kind.keyType
  format := .legacy kind
  publicHalf := none
  comment := ""
  cipher
  kdf := md5Name
  kdfOptions := []
  secret := .locked data iv

/-- The key that an unencrypted traditional block is read as. -/
def plainLegacy (kind : Legacy.Kind) (publicKey : PublicKey) (privateKey : PrivateKey) : Key where
  type := kind.keyType
  format := .legacy kind
  publicHalf := some publicKey
  comment := ""
  cipher := noneName
  kdf := noneName
  kdfOptions := []
  secret := .unlocked privateKey

theorem parse_of_written_plain {kind : Legacy.Kind} {body : Bytes} {privateKey : PrivateKey}
    (hbody : Legacy.decode kind body = .ok privateKey) {publicKey : PublicKey}
    (hpub : privateKey.publicKey = .ok publicKey) {text : Bytes}
    (ht : Written { label := (KeyFormat.legacy kind).label, data := body } text) :
    parse text = .ok (plainLegacy kind publicKey privateKey) := by
  have block := ht.parse_eq (Legacy.isLabel_legacy kind) (by simp) (Legacy.ne_nil_of_decode hbody)
  have unencrypted : Legacy.isEncrypted { label := (KeyFormat.legacy kind).label, data := body } =
      false := rfl
  refine bind_eq_ok.2 ⟨_, block, ?_⟩
  simp only [ofPem, ofLabel?_legacy, ofLegacy, unencrypted, Bool.false_eq_true, if_false,
    bind_eq_ok]
  exact ⟨privateKey, hbody, publicKey, hpub, rfl⟩

theorem parse_of_written_sealed {kind : Legacy.Kind} {cipher digits : String} {iv : Bytes}
    (hc : ∀ c ∈ cipher.toList, isNameChar c = true) (hd : Hex.Spells digits.toList iv)
    {data : Bytes} (hne : data ≠ []) {text : Bytes}
    (ht : Written (Legacy.sealed kind cipher digits data) text) :
    parse text = .ok (lockedLegacy kind cipher iv data) := by
  have block := ht.parse_eq (Legacy.isLabel_legacy kind)
    (Legacy.isHeader_of_mem_headers cipher digits) hne
  have label : KeyFormat.ofLabel? (Legacy.sealed kind cipher digits data).label =
      some (.legacy kind) := ofLabel?_legacy kind
  refine bind_eq_ok.2 ⟨_, block, ?_⟩
  simp only [ofPem, label, ofLegacy, Legacy.isEncrypted_sealed, if_true, bind_eq_ok]
  exact ⟨(cipher, iv), Legacy.encryption_sealed hc hd kind data, rfl⟩

/-- A traditional key that is encrypted, in a block that names its cipher and vector, is read as a
locked key without a public half. The passphrase that it was encrypted with unlocks it to the
halves that it has when it is read unencrypted. -/
theorem tryUnlock_sealedLegacy {kind : Legacy.Kind} {body : Bytes} {privateKey : PrivateKey}
    (hbody : Legacy.decode kind body = .ok privateKey) {passphrase : String} (hp : passphrase ≠ "")
    {cipher : String} {c : CipherKind} (hc : CipherKind.ofName? cipher = some c) {iv : Bytes}
    (hiv : iv.length = 16) {digits : String} (hd : Hex.Spells digits.toList iv) (padding : Bytes)
    (hwhole : c.isCbc → (body ++ padding).length % blockSize = 0) :
    ∃ key plain locked unlocked,
      Md5Chain.derive (Utf8.encode passphrase) iv c.keySize = .ok key ∧
      (∀ text, Written { label := (KeyFormat.legacy kind).label, data := body } text →
        parse text = .ok plain) ∧
      (∀ text,
        Written (Legacy.sealed kind cipher digits (c.encrypt key iv (body ++ padding))) text →
          parse text = .ok locked) ∧
      locked.isLocked ∧ locked.publicHalf = none ∧
      locked.tryUnlock passphrase = (unlocked, .ok ()) ∧
      unlocked.type = plain.type ∧ unlocked.secret = plain.secret ∧
      unlocked.publicHalf = plain.publicHalf ∧ plain.secret = .unlocked privateKey ∧
      plain.publicHalf.isSome := by
  have chars := CipherKind.isNameChar_of_ofName? hc
  obtain ⟨-, hwf⟩ := Legacy.wellFormed_of_decode hbody
  obtain ⟨publicKey, hpub, -⟩ := PrivateKey.exists_publicKey hwf
  have salted : 8 ≤ iv.length := by omega
  obtain ⟨key, hkey, hkl⟩ := Md5Chain.exists_derive salted (Utf8.encode passphrase) c.keySize
  have nonempty : c.encrypt key iv (body ++ padding) ≠ [] := by
    rw [← List.length_pos_iff, c.length_encrypt hwhole, List.length_append]
    have := List.length_pos_iff.2 (Legacy.ne_nil_of_decode hbody)
    omega
  have text := Legacy.decrypt_encrypt hc hp hiv hkey hkl hwhole
  have secret : (lockedLegacy kind cipher iv (c.encrypt key iv (body ++ padding))).openSecret
      (c.encrypt key iv (body ++ padding)) iv passphrase = .ok ⟨privateKey, ""⟩ := by
    refine bind_eq_ok.2 ⟨_, text, ?_⟩
    rw [Legacy.decode_append hbody]
    rfl
  exact ⟨key, plainLegacy kind publicKey privateKey, lockedLegacy kind cipher iv _, _, hkey,
    fun _ ht => parse_of_written_plain hbody hpub ht,
    fun _ ht => parse_of_written_sealed chars hd nonempty ht, rfl, rfl,
    tryUnlock_of_openSecret rfl secret hpub, rfl, rfl, rfl, rfl, rfl⟩

/-- The sequence of an RSA key of small integers, without the three that may follow its primes. -/
def shortBody : Bytes :=
  [0x30, 19, 2, 1, 0, 2, 2, 0, 0xC5, 2, 1, 3, 2, 1, 65, 2, 1, 13, 2, 1, 11]

def shortKey : PrivateKey where
  type := .rsa
  preamble := []
  parts := [[0, 0xC5], [3], [65], [6], [13], [11]]

def shortVector : Bytes := [0, 1, 2, 3, 4, 5, 6, 7, 8, 9, 10, 11, 12, 13, 14, 15]

def shortDigits : String := "000102030405060708090A0B0c0d0e0f"

/-- The block of that key as it stands. -/
def shortPlain : PemBlock := { label := (KeyFormat.legacy .rsa).label, data := shortBody }

/-- The block of that key with its body encrypted. -/
def shortSealed (key : Bytes) : PemBlock :=
  Legacy.sealed .rsa "AES-128-CBC" shortDigits
    (CipherKind.aes128Cbc.encrypt key shortVector (shortBody ++ List.replicate 11 11))

theorem shortKey_tryUnlock_sealed :
    ∃ key plain locked unlocked, Md5Chain.derive (Utf8.encode "sesame") shortVector 16 = .ok key ∧
      (∃ text, shortPlain.Written text ∧ parse text = .ok plain) ∧
      (∃ text, (shortSealed key).Written text ∧ parse text = .ok locked) ∧
      locked.isLocked ∧ locked.publicHalf = none ∧
      locked.tryUnlock "sesame" = (unlocked, .ok ()) ∧ unlocked.type = plain.type ∧
      unlocked.secret = plain.secret ∧ unlocked.publicHalf = plain.publicHalf ∧
      plain.secret = .unlocked shortKey := by
  have body : Legacy.decode .rsa shortBody = .ok shortKey := by decide +kernel
  have kind : CipherKind.ofName? "AES-128-CBC" = some .aes128Cbc := by decide
  have digits : Hex.Spells shortDigits.toList shortVector := by
    unfold Hex.Spells
    decide
  obtain ⟨key, plain, locked, unlocked, hkey, hplain, hsealed, hl, hn, hu, ht, hs, hh, hk, -⟩ :=
    tryUnlock_sealedLegacy body (by decide : "sesame" ≠ "") kind (by decide) digits
      (List.replicate 11 11) (by decide)
  have label : ∀ c ∈ shortPlain.label.toList, IsPlain c := List.all_iff_forall_prop.1 (by decide)
  have headers : ∀ h ∈ Legacy.headers "AES-128-CBC" shortDigits, ∀ c ∈ headerRow h, IsPlain c := by
    have rows : ∀ row ∈ (Legacy.headers "AES-128-CBC" shortDigits).map headerRow,
        row.all (fun c => decide (IsPlain c)) = true := by decide
    intro h hm
    exact List.all_iff_forall_prop.1 (rows _ (List.mem_map_of_mem hm))
  have written := written_rows (p := shortPlain) label (by simp [shortPlain]) lineWidth
  have sealedWritten := written_rows (p := shortSealed key) label headers lineWidth
  exact ⟨key, plain, locked, unlocked, hkey, ⟨_, written, hplain _ written⟩,
    ⟨_, sealedWritten, hsealed _ sealedWritten⟩, hl, hn, hu, ht, hs, hh, hk⟩

end Key

end SshKeyring
