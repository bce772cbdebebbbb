import SshKeyring.Proofs.Cipher.Decryptor
import SshKeyring.Proofs.Key.Sealed
import SshKeyring.Proofs.Key.SealedLegacy

/-! What an attempt to unlock a key can report once the private section has been decrypted. Of a
traditional key whatever does not decode is put down to the passphrase. Of a container only check
integers that differ and a key of another type are. Of a section that ends too early, or has two
equal check integers and then no key or no comment, it is said what is wrong with its bytes. -/

namespace SshKeyring

open Wire

/-! ### What is said of bytes that cannot be read -/

/-- What is wrong with bytes in front of which no key stands: they end too early, they have too long
a string, or they name a type that is not known. -/
def KeyError.Illegible (e : KeyError) : Prop :=
  e = .truncated ∨ e = .encoding .overflow ∨ ∃ name, e = .unknownKeyType name

namespace KeyError

theorem illegible_ofWire {e : WireError} (h : e.Illegible) : (ofWire e).Illegible := by
  obtain rfl | rfl := h
  · exact .inl rfl
  · exact .inr (.inl rfl)

theorem Illegible.ne_wrongPassphrase {e : KeyError} (h : e.Illegible) :
    e ≠ .wrongPassphraseOrCorruptKey := by
  obtain rfl | rfl | ⟨name, rfl⟩ := h <;> simp

end KeyError

/-- Something is read just where the condition holds, or else the passphrase is put to blame then.
Where it does not hold it is said what is wrong with the bytes. -/
inductive Separated {α : Type} (P : Prop) : Except KeyError α → Prop
  | value (h : P) (a : α) : Separated P (.ok a)
  | passphrase (h : P) : Separated P (.error .wrongPassphraseOrCorruptKey)
  | bytes (h : ¬ P) {e : KeyError} (he : e.Illegible) : Separated P (.error e)

namespace Separated

variable {α β : Type} {P Q : Prop} {x : Except KeyError α}

theorem congr (h : Separated P x) (hQ : Q ↔ P) : Separated Q x := by
  rwa [hQ]

theorem map (h : Separated P x) (f : α → β) : Separated P (x.map f) := by
  cases h with
  | value h a => exact .value h (f a)
  | passphrase h => exact .passphrase h
  | bytes h he => exact .bytes h he

theorem iff (h : Separated P x) :
    ((∃ a, x = .ok a) ∨ x = .error .wrongPassphraseOrCorruptKey) ↔ P := by
  cases h with
  | value h a => exact iff_of_true (.inl ⟨a, rfl⟩) h
  | passphrase h => exact iff_of_true (.inr rfl) h
  | bytes h he =>
    refine iff_of_false ?_ h
    rintro (⟨a, ⟨⟩⟩ | hx)
    exact he.ne_wrongPassphrase (Except.error.inj hx)

theorem error (h : Separated P x) {e : KeyError} (hx : x = .error e) :
    e = .wrongPassphraseOrCorruptKey ∨ ¬ P ∧ e.Illegible := by
  cases h with
  | value => cases hx
  | passphrase =>
    cases hx
    exact .inl rfl
  | bytes h he =>
    cases hx
    exact .inr ⟨h, he⟩

end Separated

namespace Reader

variable {α β : Type}

/-- The inputs on which something is read, or else the passphrase is put to blame. -/
def Separates (r : Reader KeyError α) (P : Bytes → Prop) : Prop :=
  ∀ input, Separated (P input) (r input)

theorem Separates.pure (a : α) : (pure a : Reader KeyError α).Separates fun _ => True :=
  fun input => .value trivial (a, input)

/-- A check that the passphrase has to answer for. -/
theorem Separates.failIf {r : Reader KeyError α} {P : Bytes → Prop} (p : Prop) [Decidable p]
    (h : r.Separates P) :
    Separates (if p then fail .wrongPassphraseOrCorruptKey else r) fun input => ¬ p → P input := by
  intro input
  by_cases hp : p
  · rw [if_pos hp]
    exact .passphrase fun h => absurd hp h
  · rw [if_neg hp]
    exact (h input).congr (by simp [hp])

/-- What comes first has to be there. -/
theorem Separates.bind {r : Reader KeyError α} {f : α → Reader KeyError β} {P : α → Bytes → Prop}
    (hr : r.FailsWith KeyError.Illegible) (hf : ∀ a, (f a).Separates (P a)) :
    (r >>= f).Separates fun input => ∃ a rest, r input = .ok (a, rest) ∧ P a rest := by
  intro input
  rw [bind_apply]
  cases h : r input with
  | error e => exact .bytes (by simp [h]) (hr _ _ h)
  | ok out =>
    obtain ⟨a, rest⟩ := out
    exact (hf a rest).congr (by simp [h])

end Reader

theorem KeyType.read_failsWith : read.FailsWith KeyError.Illegible := by
  refine (string_failsWith.mapError fun _ => KeyError.illegible_ofWire).bind fun _ name _ _ => ?_
  cases h : ofBytes name with
  | ok t => exact Reader.pure_failsWith t
  | error e =>
    refine Reader.fail_failsWith (.inr (.inr ?_))
    unfold ofBytes ofName at h
    split at h
    · split at h
      · cases h
      · cases h
        exact ⟨_, rfl⟩
    · cases h
      exact ⟨_, rfl⟩

namespace PrivateKey

theorem readPreamble_failsWith : readPreamble.FailsWith WireError.Illegible := by
  refine (string_failsWith.times 3).bind fun input strings left hs => ?_
  refine byte_failsWith.bind fun _ flags _ _ => ?_
  -- strings that were read can be written again
  obtain ⟨⟨-, short⟩, -⟩ := (string_exact.times 3 _ _ _).1 hs
  rw [putStrings_eq_ok_iff.2 ⟨fun s hm => lt_countLimit (short s hm), rfl⟩]
  exact Reader.pure_failsWith _

theorem read_failsWith : read.FailsWith KeyError.Illegible := by
  refine KeyType.read_failsWith.bind fun _ type _ _ => ?_
  have preamble : (readPreambleOf type).FailsWith KeyError.Illegible := by
    unfold readPreambleOf
    split
    · exact readPreamble_failsWith.mapError fun _ => KeyError.illegible_ofWire
    · exact Reader.pure_failsWith _
  have parts := (string_failsWith.times type.privateParts).mapError
    fun _ => KeyError.illegible_ofWire
  exact preamble.bind fun _ _ _ _ => parts.bind fun _ _ _ _ => Reader.pure_failsWith _

end PrivateKey

/-! ### Sections -/

namespace PrivateSection

/-- In front stands the encoding of a private key and, if that has the type, a comment behind it. -/
def Carries (type : KeyType) (b : Bytes) : Prop :=
  ∃ (privateKey : PrivateKey) (key rest : Bytes), privateKey.WellFormed ∧
    (∀ part ∈ privateKey.parts, part.length ≤ maxLength) ∧ privateKey.encode = .ok key ∧
      b = key ++ rest ∧ (privateKey.type = type →
        ∃ comment tail : Bytes, comment.length ≤ maxLength ∧ rest = stringBytes comment ++ tail)

/-- There are two check integers, and where they agree, a key behind them. -/
def Legible (type : KeyType) (b : Bytes) : Prop :=
  ∃ (check again : UInt32) (behind : Bytes), b = putWord check ++ putWord again ++ behind ∧
    (check = again → Carries type behind)

theorem carries_iff {type : KeyType} {b : Bytes} : Carries type b ↔
    ∃ privateKey rest, PrivateKey.read b = .ok (privateKey, rest) ∧
      (¬ privateKey.type ≠ type → ∃ comment tail, string rest = .ok (comment, tail)) := by
  simp only [Carries, string_exact _ _ _, ne_eq, not_not,
    PrivateKey.read_exact.eq_ok_iff_of_write fun _ => PrivateKey.encode_of_readable,
    PrivateKey.Readable]
  constructor
  · rintro ⟨privateKey, key, rest, hk, hp, he, rfl, hcomment⟩
    exact ⟨privateKey, rest, ⟨⟨hk, hp⟩, key, he, rfl⟩, hcomment⟩
  · rintro ⟨privateKey, rest, ⟨⟨hk, hp⟩, key, he, rfl⟩, hcomment⟩
    exact ⟨privateKey, key, rest, hk, hp, he, rfl, hcomment⟩

/-- The check integers alone take eight bytes. -/
theorem Legible.length {type : KeyType} {b : Bytes} (h : Legible type b) : 8 ≤ b.length := by
  obtain ⟨check, again, behind, rfl, -⟩ := h
  simp only [List.length_append, length_putWord]
  omega

theorem legible_iff {type : KeyType} {b : Bytes} : Legible type b ↔
    ∃ checks behind, readChecks b = .ok (checks, behind) ∧
      (¬ checks.1 ≠ checks.2 → Carries type behind) := by
  simp only [Legible, readChecks_exact _ _ _, true_and, Prod.exists, ne_eq, not_not]

theorem readChecks_failsWith : readChecks.FailsWith KeyError.Illegible :=
  Reader.FailsWith.mapError (word_failsWith.bind fun _ _ _ _ =>
    word_failsWith.bind fun _ _ _ _ => Reader.pure_failsWith _) fun _ => KeyError.illegible_ofWire

theorem read_separates (type : KeyType) : (read type).Separates (Legible type) := by
  have comment : (string.mapError KeyError.ofWire).FailsWith KeyError.Illegible :=
    string_failsWith.mapError fun _ => KeyError.illegible_ofWire
  intro b
  refine (Reader.Separates.bind readChecks_failsWith (fun checks => .failIf _ ?_) b).congr
    legible_iff
  intro behind
  refine (Reader.Separates.bind PrivateKey.read_failsWith
    (fun privateKey => .failIf _ ?_) behind).congr carries_iff
  intro rest
  refine (Reader.Separates.bind comment (fun _ => .pure _) rest).congr ?_
  simp only [Reader.mapError_eq_ok_iff, and_true]

/-- A legible section is opened or put down to the passphrase, and of any other it is said what is
wrong with its bytes. -/
theorem decode_separated (type : KeyType) (b : Bytes) :
    Separated (Legible type b) (decode type b) := (read_separates type b).map Prod.fst

end PrivateSection

/-- Any passphrase finds some text in a body, if there are a salt and rounds and the cipher takes
the length. -/
theorem Container.exists_decrypt {cipher : String} {kind : CipherKind}
    (hkind : CipherKind.ofName? cipher = some kind) {passphrase : String} (hp : passphrase ≠ "")
    {options : KdfOptions} {kdfOptions : Bytes} (ho : KdfOptions.ofBytes kdfOptions = .ok options)
    (hsalt : options.salt ≠ []) (hrounds : options.rounds.toNat ≠ 0) {body : Bytes}
    (hb : kind.isCbc → body.length % blockSize = 0) :
    ∃ text, decrypt cipher bcryptName kdfOptions body passphrase = .ok text ∧
      text.length = body.length := by
  obtain ⟨derived, hd, hl⟩ := Bcrypt.exists_derive (Utf8.encode_ne_nil hp) hsalt hrounds
    (material_pos kind) (material_le kind)
  rw [decrypt_of_derived hkind hp ho hd hl]
  obtain ⟨text, htext⟩ := Decryptor.exists_decrypt
    (d := { kind, key := derived.take kind.keySize, iv := derived.drop kind.keySize }) hb
  exact ⟨text, htext, Decryptor.length_of_decrypt htext⟩

/-! ### Keys -/

namespace Key

variable {k : Key} {ciphertext iv text : Bytes} {passphrase : String}

/-- The private section as plain text, which comes before anything is read from it. -/
def decryptSecret (k : Key) (ciphertext iv : Bytes) (passphrase : String) : Except KeyError Bytes :=
  match k.format with
  | .openSsh => Container.decrypt k.cipher k.kdf k.kdfOptions ciphertext passphrase
  | .legacy _ => Legacy.decrypt k.cipher iv ciphertext passphrase

/-- What is read from the plain text. -/
def readSecret (k : Key) (text : Bytes) : Except KeyError PrivateSection :=
  match k.format with
  | .openSsh => PrivateSection.decode k.type text
  | .legacy kind =>
    match Legacy.decode kind text with
    | .ok privateKey => .ok { privateKey, comment := "" }
    | .error _ => .error .wrongPassphraseOrCorruptKey

theorem openSecret_eq (k : Key) (ciphertext iv : Bytes) (passphrase : String) :
    k.openSecret ciphertext iv passphrase =
      k.decryptSecret ciphertext iv passphrase >>= k.readSecret := by
  unfold openSecret decryptSecret readSecret
  cases k.format <;> rfl

theorem wellFormed_of_readSecret {s : PrivateSection} (h : k.readSecret text = .ok s) :
    s.privateKey.WellFormed := by
  unfold readSecret at h
  split at h
  · exact (PrivateSection.wellFormed_of_decode h).2
  · split at h
    · next hk =>
      cases h
      exact (Legacy.wellFormed_of_decode hk).2
    · cases h

/-- Whatever key is found in a section, its public half is there to be stored. -/
theorem exists_publicHalfWith (k : Key) {s : PrivateSection} (h : s.privateKey.WellFormed) :
    ∃ publicKey, k.publicHalfWith s = .ok publicKey := by
  unfold publicHalfWith
  cases k.publicHalf with
  | none =>
    obtain ⟨publicKey, h, -⟩ := PrivateKey.exists_publicKey h
    exact ⟨publicKey, h⟩
  | some known => exact ⟨known, rfl⟩

theorem readSecret_separated (k : Key) (text : Bytes) :
    Separated (k.format = .openSsh → PrivateSection.Legible k.type text) (k.readSecret text) := by
  unfold readSecret
  cases k.format with
  | openSsh => exact (PrivateSection.decode_separated k.type text).congr (by simp)
  | legacy kind =>
    dsimp only
    cases Legacy.decode kind text with
    | ok privateKey => exact .value nofun _
    | error e => exact .passphrase nofun

/-- Once the section has been decrypted, what was read of it decides. -/
theorem tryUnlock_of_decryptSecret (hsecret : k.secret = .locked ciphertext iv)
    (htext : k.decryptSecret ciphertext iv passphrase = .ok text) :
    (k.tryUnlock passphrase).2 = (k.readSecret text).map fun _ => () := by
  rw [tryUnlock_eq, unlock_of_locked hsecret, openSecret_eq, htext]
  simp only [bind, Except.bind]
  cases hs : k.readSecret text with
  | error e => rfl
  | ok s =>
    obtain ⟨publicKey, hp⟩ := k.exists_publicHalfWith (wellFormed_of_readSecret hs)
    simp only [hp]
    rfl

/-- A locked key whose private section has been decrypted is unlocked, or the passphrase is said to
be wrong or the key corrupt, whatever is in the section of a traditional key and if that of a
container is legible. Of a container's section that is not, the error says what is wrong with its
bytes instead. -/
theorem tryUnlock_decrypted (hsecret : k.secret = .locked ciphertext iv)
    (htext : k.decryptSecret ciphertext iv passphrase = .ok text) :
    (((k.tryUnlock passphrase).2 = .ok () ∨
        (k.tryUnlock passphrase).2 = .error .wrongPassphraseOrCorruptKey) ↔
      (k.format = .openSsh → PrivateSection.Legible k.type text)) ∧
    ∀ e, (k.tryUnlock passphrase).2 = .error e →
      e = .wrongPassphraseOrCorruptKey ∨ k.format = .openSsh ∧ e.Illegible := by
  have separated := (k.readSecret_separated text).map fun _ => ()
  rw [← tryUnlock_of_decryptSecret hsecret htext] at separated
  refine ⟨?_, fun e he => (separated.error he).imp_right fun ⟨h, illegible⟩ => ?_⟩
  · rw [← separated.iff]
    exact or_congr_left ⟨fun h => ⟨(), h⟩, fun ⟨_, h⟩ => h⟩
  · exact ⟨of_not_not fun h' => h fun container => absurd container h', illegible⟩

/-- A container whose private section is a single byte. -/
def stub : Container where
  cipher := "aes256-ctr"
  kdf := bcryptName
  kdfOptions := saltOne
  publicKey := ones
  body := [7]

/-- That container as the block of a text. -/
def stubText : Bytes :=
  Utf8.encode (PemBlock.encode { label := KeyFormat.openSsh.label, data := stub.wire } lineWidth)

theorem parse_stubText : parse stubText = .ok (lockedBy stub) := by
  have back : Container.decode stub.wire = .ok stub :=
    Container.decode_wire rfl (by decide) (by decide) (by decide) (by decide +kernel) (by decide)
  rw [stubText, parse_of_written_openSsh back (written_encode_openSsh _ lineWidth)]
  exact ofContainer_of_encrypted (by decide)

/-- There is a byte that the section of `stub` is decrypted to. -/
theorem exists_decryptSecret_stub :
    ∃ b, (lockedBy stub).decryptSecret stub.body [] "x" = .ok [b] := by
  have options : KdfOptions.ofBytes saltOne = .ok ⟨[1], 1⟩ := by decide +kernel
  have kind : CipherKind.ofName? stub.cipher = some .aes256Ctr := by decide
  have whole : CipherKind.aes256Ctr.isCbc → stub.body.length % blockSize = 0 := by decide
  obtain ⟨text, htext, hl⟩ := Container.exists_decrypt kind (by decide : "x" ≠ "") options
    (by decide) (by decide) whole
  match text, hl with
  | [b], _ => exact ⟨b, htext⟩

/-- A locked DSA key with nothing but one block of sevens in it. -/
def sevenBlock : Key := lockedLegacy .dsa "AES-128-CBC" shortVector (List.replicate 16 7)

theorem stub_tryUnlock_decrypted :
    (∃ text, (lockedBy stub).decryptSecret stub.body [] "x" = .ok text ∧
      ¬ PrivateSection.Legible .ed25519 text ∧
      ∃ e, ((lockedBy stub).tryUnlock "x").2 = .error e ∧ e.Illegible) ∧
    ∃ text, sevenBlock.decryptSecret (List.replicate 16 7) shortVector "x" = .ok text ∧
      ((sevenBlock.tryUnlock "x").2 = .ok () ∨
        (sevenBlock.tryUnlock "x").2 = .error .wrongPassphraseOrCorruptKey) := by
  constructor
  · obtain ⟨b, htext⟩ := exists_decryptSecret_stub
    have illegible : ¬ PrivateSection.Legible .ed25519 [b] := fun h => absurd h.length (by simp)
    obtain ⟨iff, faults⟩ := tryUnlock_decrypted rfl htext
    refine ⟨[b], htext, illegible, ?_⟩
    cases h : ((lockedBy stub).tryUnlock "x").2 with
    | ok u => exact absurd (iff.1 (.inl h) rfl) illegible
    | error e =>
      obtain rfl | ⟨-, unread⟩ := faults e h
      · exact absurd (iff.1 (.inr h) rfl) illegible
      · exact ⟨e, rfl, unread⟩
  · have decrypted : (sevenBlock.decryptSecret (List.replicate 16 7) shortVector "x").isOk := by
      decide +kernel
    cases htext : sevenBlock.decryptSecret (List.replicate 16 7) shortVector "x" with
    | error e =>
      rw [htext] at decrypted
      cases decrypted
    | ok text => exact ⟨text, rfl, (tryUnlock_decrypted rfl htext).1.2 nofun⟩

/-- There is a text whose container is decrypted with a passphrase and then said to be truncated,
neither unlocked nor put down to the passphrase. -/
theorem stub_tryUnlock : parse stubText = .ok (lockedBy stub) ∧
    (lockedBy stub).secret = .locked stub.body [] ∧
    (∃ text, (lockedBy stub).decryptSecret stub.body [] "x" = .ok text) ∧
    ((lockedBy stub).tryUnlock "x").2 = .error .truncated := by
  obtain ⟨b, htext⟩ := exists_decryptSecret_stub
  refine ⟨parse_stubText, rfl, ⟨_, htext⟩, ?_⟩
  rw [tryUnlock_of_decryptSecret rfl htext]
  rfl

end Key

end SshKeyring
