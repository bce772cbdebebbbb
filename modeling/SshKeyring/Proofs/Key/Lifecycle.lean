import SshKeyring.Proofs.Key.Legacy
import SshKeyring.Proofs.Key.Unlock

/-! The life of a key, from the file or the private half it is made from through attempts to
unlock it and changes of its comment. A key is well-formed all along, and of what is known about it
once, only the comment changes. -/

namespace SshKeyring.Key

/-- The public half is missing just while a traditional key is locked, and the halves that are
there fit the key's type. -/
structure WellFormed (k : Key) : Prop where
  publicHalf_none : k.publicHalf = none ↔ k.isLocked = true ∧ k.format ≠ .openSsh
  publicHalf_some : ∀ p, k.publicHalf = some p → p.type = k.type ∧ p.WellFormed
  unlocked : ∀ p, k.secret = .unlocked p → p.type = k.type ∧ p.WellFormed
  legacy : ∀ kind, k.format = .legacy kind → k.type = kind.keyType

/-- An unlocked key is well-formed if its two halves are and have its type. -/
theorem wellFormed_of_halves {k : Key} {publicKey : PublicKey} {privateKey : PrivateKey}
    (hpub : k.publicHalf = some publicKey) (hu : k.secret = .unlocked privateKey)
    (hp : publicKey.type = k.type ∧ publicKey.WellFormed)
    (hk : privateKey.type = k.type ∧ privateKey.WellFormed)
    (hl : ∀ kind, k.format = .legacy kind → k.type = kind.keyType) : k.WellFormed := by
  refine ⟨by simp [hpub, isLocked, hu], fun p h => ?_, fun p h => ?_, hl⟩
  · obtain rfl : publicKey = p := by simpa [hpub] using h
    exact hp
  · obtain rfl : privateKey = p := by simpa [hu] using h
    exact hk

/-- What stays of a key from an earlier time to a later one. -/
structure Follows (later earlier : Key) : Prop where
  type : later.type = earlier.type
  format : later.format = earlier.format
  cipher : later.cipher = earlier.cipher
  kdf : later.kdf = earlier.kdf
  kdfOptions : later.kdfOptions = earlier.kdfOptions
  publicHalf : ∀ p, earlier.publicHalf = some p → later.publicHalf = some p
  secret : ∀ p, earlier.secret = .unlocked p → later.secret = .unlocked p

theorem Follows.refl (k : Key) : k.Follows k :=
  ⟨rfl, rfl, rfl, rfl, rfl, fun _ h => h, fun _ h => h⟩

theorem Follows.trans {a b c : Key} (h : c.Follows b) (h' : b.Follows a) : c.Follows a where
  type := h.type.trans h'.type
  format := h.format.trans h'.format
  cipher := h.cipher.trans h'.cipher
  kdf := h.kdf.trans h'.kdf
  kdfOptions := h.kdfOptions.trans h'.kdfOptions
  publicHalf p hp := h.publicHalf p (h'.publicHalf p hp)
  secret p hp := h.secret p (h'.secret p hp)

/-! ### Creation -/

/-- The ways to come by a key: from a text, from a PEM block, and from a private half with the
parts of its type. -/
inductive Created : Key → Prop
  | ofText {text : Bytes} {k : Key} (h : parse text = .ok k) : Created k
  | ofBlock {p : PemBlock} {k : Key} (h : ofPem p = .ok k) : Created k
  | ofHalf {p : PrivateKey} {comment : String} {k : Key} (hp : p.WellFormed)
      (h : ofPrivate p comment = .ok k) : Created k

/-- What a key has from the container that it was read from. -/
structure ReadFrom (k : Key) (c : Container) : Prop where
  type : k.type = c.publicKey.type
  format : k.format = .openSsh
  publicHalf : k.publicHalf = some c.publicKey
  cipher : k.cipher = c.cipher
  kdf : k.kdf = c.kdf
  kdfOptions : k.kdfOptions = c.kdfOptions
  encrypted : c.cipher ≠ noneName → k.secret = .locked c.body []
  unencrypted : c.cipher = noneName → ∃ s, PrivateSection.decode c.publicKey.type c.body = .ok s ∧
    k.secret = .unlocked s.privateKey

theorem readFrom_of_ofContainer {c : Container} {k : Key} (h : ofContainer c = .ok k) :
    k.ReadFrom c := by
  unfold ofContainer at h
  by_cases hcipher : c.cipher = noneName
  · simp only [if_pos hcipher, bind_eq_ok, pure_eq_ok] at h
    obtain ⟨s, hs, rfl⟩ := h
    exact ⟨rfl, rfl, rfl, rfl, rfl, rfl, fun hne => absurd hcipher hne, fun _ => ⟨s, hs, rfl⟩⟩
  · simp only [if_neg hcipher, pure_eq_ok] at h
    subst h
    exact ⟨rfl, rfl, rfl, rfl, rfl, rfl, fun _ => rfl, fun he => absurd he hcipher⟩

theorem ReadFrom.wellFormed {k : Key} {c : Container} (h : k.ReadFrom c)
    (hc : c.publicKey.WellFormed) : k.WellFormed := by
  by_cases hcipher : c.cipher = noneName
  · obtain ⟨s, hs, hsecret⟩ := h.unencrypted hcipher
    have fits := PrivateSection.wellFormed_of_decode hs
    rw [← h.type] at fits
    exact wellFormed_of_halves h.publicHalf hsecret ⟨h.type.symm, hc⟩ fits (by simp [h.format])
  · have hsecret := h.encrypted hcipher
    refine ⟨by simp [h.publicHalf, h.format], fun p hp => ?_, by simp [hsecret], by simp [h.format]⟩
    obtain rfl : c.publicKey = p := by simpa [h.publicHalf] using hp
    exact ⟨h.type.symm, hc⟩

/-- A traditional key is either locked with both halves unknown, where the headers say that it is
encrypted, or unlocked with its public half worked out from the private one. -/
theorem ofLegacy_eq_ok {kind : Legacy.Kind} {p : PemBlock} {k : Key} (h : ofLegacy kind p = .ok k) :
    k.type = kind.keyType ∧ k.format = .legacy kind ∧ k.comment = "" ∧
      ((Legacy.isEncrypted p = true ∧ ∃ iv, Legacy.encryption p = .ok (k.cipher, iv) ∧
          k.publicHalf = none ∧ k.secret = .locked p.data iv) ∨
        (Legacy.isEncrypted p = false ∧ ∃ privateKey publicKey,
          Legacy.decode kind p.data = .ok privateKey ∧ privateKey.publicKey = .ok publicKey ∧
            k.publicHalf = some publicKey ∧ k.secret = .unlocked privateKey)) := by
  unfold ofLegacy at h
  cases hp : Legacy.isEncrypted p with
  | true =>
    simp only [hp, if_true, bind_eq_ok, pure_eq_ok] at h
    obtain ⟨⟨cipher, iv⟩, hencryption, rfl⟩ := h
    exact ⟨rfl, rfl, rfl, .inl ⟨rfl, iv, hencryption, rfl, rfl⟩⟩
  | false =>
    simp only [hp, Bool.false_eq_true, if_false, bind_eq_ok, pure_eq_ok] at h
    obtain ⟨privateKey, hk, publicKey, hpub, rfl⟩ := h
    exact ⟨rfl, rfl, rfl, .inr ⟨rfl, privateKey, publicKey, hk, hpub, rfl, rfl⟩⟩

theorem wellFormed_of_ofLegacy {kind : Legacy.Kind} {p : PemBlock} {k : Key}
    (h : ofLegacy kind p = .ok k) : k.WellFormed := by
  obtain ⟨htype, hformat, -, ⟨-, iv, -, hpub, hsecret⟩ |
    ⟨-, privateKey, publicKey, hk, hd, hpub, hsecret⟩⟩ := ofLegacy_eq_ok h
  · exact ⟨by simp [hpub, hformat, isLocked, hsecret], by simp [hpub], by simp [hsecret],
      by simp [hformat, htype]⟩
  · have fits := Legacy.wellFormed_of_decode hk
    obtain ⟨hpt, hpw⟩ := PrivateKey.publicKey_eq_ok fits.2 hd
    rw [← htype] at fits
    exact wellFormed_of_halves hpub hsecret ⟨hpt.trans fits.1, hpw⟩ fits (by simp [hformat, htype])

/-- A block holds a container or a traditional key. -/
theorem ofPem_eq_ok {p : PemBlock} {k : Key} (h : ofPem p = .ok k) :
    (∃ c, Container.decode p.data = .ok c ∧ k.ReadFrom c) ∨ ∃ kind, ofLegacy kind p = .ok k := by
  unfold ofPem at h
  split at h
  · cases h
  · obtain ⟨c, hc, h⟩ := bind_eq_ok.1 h
    exact .inl ⟨c, hc, readFrom_of_ofContainer h⟩
  · exact .inr ⟨_, h⟩

theorem wellFormed_of_ofPem {p : PemBlock} {k : Key} (h : ofPem p = .ok k) : k.WellFormed := by
  obtain ⟨c, hc, hk⟩ | ⟨kind, hk⟩ := ofPem_eq_ok h
  · exact hk.wellFormed (Container.wellFormed_of_decode hc)
  · exact wellFormed_of_ofLegacy hk

theorem wellFormed_of_ofPrivate {p : PrivateKey} {comment : String} {k : Key} (hp : p.WellFormed)
    (h : ofPrivate p comment = .ok k) : k.WellFormed := by
  obtain ⟨publicKey, hpub, h⟩ := bind_eq_ok.1 h
  cases h
  exact wellFormed_of_halves rfl rfl (PrivateKey.publicKey_eq_ok hp hpub) ⟨rfl, hp⟩ (by simp)

theorem Created.wellFormed {k : Key} (h : k.Created) : k.WellFormed := by
  cases h with
  | ofText h =>
    obtain ⟨p, -, h⟩ := bind_eq_ok.1 h
    exact wellFormed_of_ofPem h
  | ofBlock h => exact wellFormed_of_ofPem h
  | ofHalf hp h => exact wellFormed_of_ofPrivate hp h

/-! ### Unlocking -/

/-- What is found in the private section of a well-formed key is of the key's type. -/
theorem wellFormed_of_openSecret {k : Key} (hk : k.WellFormed) {ciphertext iv : Bytes}
    {passphrase : String} {s : PrivateSection} (h : k.openSecret ciphertext iv passphrase = .ok s) :
    s.privateKey.type = k.type ∧ s.privateKey.WellFormed := by
  unfold openSecret at h
  cases hf : k.format with
  | openSsh =>
    simp only [hf, bind_eq_ok] at h
    obtain ⟨text, -, h⟩ := h
    exact PrivateSection.wellFormed_of_decode h
  | legacy kind =>
    simp only [hf, bind_eq_ok] at h
    obtain ⟨text, -, h⟩ := h
    split at h
    · next privateKey hd =>
      cases h
      rw [hk.legacy kind hf]
      exact Legacy.wellFormed_of_decode hd
    · cases h

theorem wellFormed_opened {k : Key} (hk : k.WellFormed) {s : PrivateSection} {publicKey : PublicKey}
    (hs : s.privateKey.type = k.type ∧ s.privateKey.WellFormed)
    (h : k.publicHalfWith s = .ok publicKey) : (k.opened publicKey s).WellFormed := by
  have hp : publicKey.type = k.type ∧ publicKey.WellFormed := by
    cases hp : k.publicHalf with
    | none =>
      have derived : s.privateKey.publicKey = .ok publicKey := by
        simpa [publicHalfWith, hp] using h
      obtain ⟨hpt, hpw⟩ := PrivateKey.publicKey_eq_ok hs.2 derived
      exact ⟨hpt.trans hs.1, hpw⟩
    | some known =>
      obtain rfl : known = publicKey := by simpa [publicHalfWith, hp] using h
      exact hk.publicHalf_some known hp
  exact wellFormed_of_halves rfl rfl hp hs hk.legacy

theorem opened_follows {k : Key} {ciphertext iv : Bytes} (hsecret : k.secret = .locked ciphertext iv)
    {s : PrivateSection} {publicKey : PublicKey} (h : k.publicHalfWith s = .ok publicKey) :
    (k.opened publicKey s).Follows k := by
  refine ⟨rfl, rfl, rfl, rfl, rfl, fun p hp => ?_, fun p hp => ?_⟩
  · have known : p = publicKey := by simpa [publicHalfWith, hp] using h
    rw [known]
    rfl
  · rw [hsecret] at hp
    cases hp

/-- Whatever comes of an attempt to unlock a well-formed key, it stays well-formed and keeps what
is known about it. -/
theorem tryUnlock_sound {k : Key} (hk : k.WellFormed) (passphrase : String) :
    (k.tryUnlock passphrase).1.WellFormed ∧ (k.tryUnlock passphrase).1.Follows k := by
  rw [tryUnlock_eq]
  cases hu : k.unlock passphrase with
  | error e => exact ⟨hk, .refl k⟩
  | ok u =>
    cases hsecret : k.secret with
    | unlocked key =>
      rw [unlock_of_unlocked hsecret] at hu
      cases hu
      exact ⟨hk, .refl k⟩
    | locked ciphertext iv =>
      obtain ⟨s, publicKey, hs, hp, rfl⟩ := unlock_eq_ok_of_locked hsecret hu
      have fits := wellFormed_of_openSecret hk hs
      exact ⟨wellFormed_opened hk fits hp, opened_follows hsecret hp⟩

/-! ### Whole lives -/

/-- What a program may do to a key that it holds. -/
inductive Action
  | unlock (passphrase : String)
  | setComment (comment : String)

def act (k : Key) : Action → Key
  | .unlock passphrase => (k.tryUnlock passphrase).1
  | .setComment comment => k.setComment comment

def actAll (k : Key) (actions : List Action) : Key := actions.foldl act k

theorem actAll_cons (k : Key) (action : Action) (actions : List Action) :
    k.actAll (action :: actions) = (k.act action).actAll actions := rfl

theorem setComment_sound {k : Key} (hk : k.WellFormed) (comment : String) :
    (k.setComment comment).WellFormed ∧ (k.setComment comment).Follows k :=
  ⟨⟨hk.publicHalf_none, hk.publicHalf_some, hk.unlocked, hk.legacy⟩,
    ⟨rfl, rfl, rfl, rfl, rfl, fun _ h => h, fun _ h => h⟩⟩

theorem act_sound {k : Key} (hk : k.WellFormed) (action : Action) :
    (k.act action).WellFormed ∧ (k.act action).Follows k := by
  cases action with
  | unlock passphrase => exact tryUnlock_sound hk passphrase
  | setComment comment => exact setComment_sound hk comment

theorem actAll_sound {k : Key} (hk : k.WellFormed) (actions : List Action) :
    (k.actAll actions).WellFormed ∧ (k.actAll actions).Follows k := by
  induction actions generalizing k with
  | nil => exact ⟨hk, .refl k⟩
  | cons action actions ih =>
    obtain ⟨hwf, hf⟩ := act_sound hk action
    obtain ⟨hwf', hf'⟩ := ih hwf
    exact ⟨hwf', hf'.trans hf⟩

theorem tryAll_fst (k : Key) (passphrases : List String) :
    (k.tryAll passphrases).1 = k.actAll (passphrases.map .unlock) := by
  induction passphrases generalizing k with
  | nil => rfl
  | cons passphrase passphrases ih => exact ih (k.tryUnlock passphrase).1

/-- At every point of its life a key is well-formed, has what it was created with, and keeps what
is known about it from then on, whatever is done to it. -/
theorem actAll_of_created {k : Key} (hk : k.Created) (earlier later : List Action) :
    (k.actAll earlier).WellFormed ∧ (k.actAll earlier).Follows k ∧
      (k.actAll (earlier ++ later)).Follows (k.actAll earlier) := by
  obtain ⟨hwf, hf⟩ := actAll_sound hk.wellFormed earlier
  refine ⟨hwf, hf, ?_⟩
  rw [actAll, List.foldl_append]
  exact (actAll_sound hwf later).2

/-- The block that `smallLocked` is read from. -/
def smallBlock : PemBlock where
  label := "DSA PRIVATE KEY"
  headers := [("Proc-Type", "4,ENCRYPTED"),
    ("DEK-Info", "AES-128-CBC,01010101010101010101010101010101")]
  data := smallText

theorem ofPem_smallBlock : ofPem smallBlock = .ok smallLocked := by
  have label : KeyFormat.ofLabel? smallBlock.label = some (.legacy .dsa) := by decide
  have encrypted : Legacy.isEncrypted smallBlock = true := by decide +kernel
  have headers : Legacy.encryption smallBlock = .ok ("AES-128-CBC", smallVector) := by
    decide +kernel
  simp only [ofPem, label, ofLegacy, encrypted, if_true, headers]
  rfl

/-- What is done to `smallLocked` until it is open and has a comment. -/
def smallActions : List Action := [.unlock "", .unlock "sesame", .setComment "door"]

theorem smallLocked_actAll :
    smallLocked.Created ∧ smallLocked.publicHalf = none ∧
      (smallLocked.actAll smallActions).WellFormed ∧
      (smallLocked.actAll smallActions).Follows smallLocked ∧
      (smallLocked.actAll smallActions).publicHalf = some smallPublic ∧
      (smallLocked.actAll (smallActions ++ [.unlock "open", .setComment "gate"])).publicHalf =
        some smallPublic ∧
      (smallLocked.actAll (smallActions ++ [.unlock "open", .setComment "gate"])).secret =
        .unlocked smallKey := by
  have created : smallLocked.Created := .ofBlock ofPem_smallBlock
  have refused : (smallLocked.tryUnlock "").1 = smallLocked :=
    tryUnlock_fst_of_error (e := .passphraseRequired) rfl
  have opened : smallLocked.actAll smallActions =
      (smallLocked.opened smallPublic ⟨smallKey, ""⟩).setComment "door" := by
    -- action by action, since evaluating them all would run the cipher
    rw [smallActions, actAll_cons, act, refused, actAll_cons, act, smallLocked_tryUnlock_sesame]
    rfl
  obtain ⟨hwf, first, last⟩ :=
    actAll_of_created created smallActions [.unlock "open", .setComment "gate"]
  refine ⟨created, rfl, hwf, first, ?_, last.publicHalf smallPublic ?_, last.secret smallKey ?_⟩ <;>
    rw [opened] <;> rfl

end SshKeyring.Key
