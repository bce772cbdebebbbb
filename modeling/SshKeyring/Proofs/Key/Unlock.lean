import SshKeyring.Key
import SshKeyring.Proofs.Derive
import SshKeyring.Proofs.Key.Container
import SshKeyring.Proofs.Key.Legacy

/-! Unlocking a key. The key that a passphrase unlocks is worked out as a whole here, and what is
done step by step to a key that stays in use comes to all of it or to nothing: an attempt that
fails leaves the key as it was, however far it got. -/

namespace SshKeyring.Key

open Steps

/-- The key once its private section is open and its public half known. -/
def opened (k : Key) (publicKey : PublicKey) (s : PrivateSection) : Key :=
  { k with
    publicHalf := some publicKey
    comment := if s.comment.isEmpty then k.comment else s.comment
    secret := .unlocked s.privateKey }

/-- The public half that a key has once a section is open: the one it had, or that of the
section's private half. -/
def publicHalfWith (k : Key) (s : PrivateSection) : Except KeyError PublicKey :=
  k.publicHalf.elim s.privateKey.publicKey .ok

/-- The fields are written only when all their values are there. -/
theorem perform_storeSection (s : PrivateSection) (k : Key) :
    (storeSection s).perform k =
      match k.publicHalfWith s with
      | .ok publicKey => (.ok (), k.opened publicKey s)
      | .error e => (.error e, k) := by
  obtain ⟨type, format, publicHalf, comment, cipher, kdf, options, secret⟩ := k
  unfold storeSection publicHalfWith opened
  rw [perform_bind, perform_get]
  cases publicHalf with
  | some known =>
    cases s.comment.isEmpty <;> rfl
  | none =>
    cases s.privateKey.publicKey with
    | error e => rfl
    | ok publicKey => cases s.comment.isEmpty <;> rfl

theorem tryUnlock_of_unlocked {k : Key} {key : PrivateKey} (h : k.secret = .unlocked key)
    (passphrase : String) : k.tryUnlock passphrase = (k, .ok ()) := by
  rw [tryUnlock, unlockInPlace, perform_bind, perform_get]
  dsimp only
  rw [h]
  rfl

/-- What the steps of an attempt come to: the section is opened, then the public half is found, and
the key is written if both are there. -/
theorem tryUnlock_of_locked {k : Key} {ciphertext iv : Bytes}
    (h : k.secret = .locked ciphertext iv) (passphrase : String) :
    k.tryUnlock passphrase =
      match (do
        let s ← k.openSecret ciphertext iv passphrase
        return k.opened (← k.publicHalfWith s) s : Except KeyError Key) with
      | .ok u => (u, .ok ())
      | .error e => (k, .error e) := by
  rw [tryUnlock, unlockInPlace, perform_bind, perform_get]
  dsimp only
  rw [h]
  dsimp only
  rw [perform_bind, perform_ofExcept]
  cases k.openSecret ciphertext iv passphrase with
  | error e => rfl
  | ok s =>
    dsimp only
    rw [perform_storeSection]
    simp only [bind, Except.bind]
    cases k.publicHalfWith s <;> rfl

theorem unlock_eq (k : Key) (passphrase : String) :
    k.unlock passphrase = (k.tryUnlock passphrase).2.map fun _ => (k.tryUnlock passphrase).1 := rfl

theorem unlock_of_unlocked {k : Key} {key : PrivateKey} (h : k.secret = .unlocked key)
    (passphrase : String) : k.unlock passphrase = .ok k := by
  rw [unlock_eq, tryUnlock_of_unlocked h]
  rfl

/-- A public half that is known stays, and so does the comment if the private section has none. -/
theorem unlock_of_locked {k : Key} {ciphertext iv : Bytes} (h : k.secret = .locked ciphertext iv)
    (passphrase : String) :
    k.unlock passphrase = do
      let s ← k.openSecret ciphertext iv passphrase
      return k.opened (← k.publicHalfWith s) s := by
  rw [unlock_eq, tryUnlock_of_locked h]
  split
  · next hu => exact hu.symm
  · next he => exact he.symm

/-- All that unlocking a locked key can do. -/
theorem unlock_eq_ok_of_locked {k u : Key} {ciphertext iv : Bytes} {passphrase : String}
    (h : k.secret = .locked ciphertext iv) (hu : k.unlock passphrase = .ok u) :
    ∃ s publicKey, k.openSecret ciphertext iv passphrase = .ok s ∧
      k.publicHalfWith s = .ok publicKey ∧ u = k.opened publicKey s := by
  simp only [unlock_of_locked h, bind_eq_ok, pure_eq_ok] at hu
  obtain ⟨s, hs, publicKey, hp, rfl⟩ := hu
  exact ⟨s, publicKey, hs, hp, rfl⟩

/-- A key that stays in use becomes the key that the passphrase unlocks, or stays as it is. -/
theorem tryUnlock_eq (k : Key) (passphrase : String) :
    k.tryUnlock passphrase =
      match k.unlock passphrase with
      | .ok u => (u, .ok ())
      | .error e => (k, .error e) := by
  cases h : k.secret with
  | unlocked key => rw [unlock_of_unlocked h, tryUnlock_of_unlocked h]
  | locked ciphertext iv => rw [unlock_of_locked h, tryUnlock_of_locked h]

/-- A passphrase that opens the private section unlocks the key. -/
theorem tryUnlock_of_openSecret {k : Key} {ciphertext iv : Bytes} {passphrase : String}
    {s : PrivateSection} {publicKey : PublicKey} (h : k.secret = .locked ciphertext iv)
    (hs : k.openSecret ciphertext iv passphrase = .ok s)
    (hp : k.publicHalfWith s = .ok publicKey) :
    k.tryUnlock passphrase = (k.opened publicKey s, .ok ()) := by
  have unlocked : k.unlock passphrase = .ok (k.opened publicKey s) := by
    rw [unlock_of_locked h]
    exact bind_eq_ok.2 ⟨s, hs, bind_eq_ok.2 ⟨publicKey, hp, rfl⟩⟩
  rw [tryUnlock_eq, unlocked]

/-! ### Attempts in a row -/

theorem tryUnlock_fst_of_error {k : Key} {passphrase : String} {e : KeyError}
    (h : (k.tryUnlock passphrase).2 = .error e) : (k.tryUnlock passphrase).1 = k := by
  rw [tryUnlock_eq] at h ⊢
  cases hu : k.unlock passphrase with
  | ok u =>
    rw [hu] at h
    cases h
  | error e => rfl

/-- Tries passphrases one after the other: the key afterwards, and what came of each attempt. -/
def tryAll (k : Key) : List String → Key × List (Except KeyError Unit)
  | [] => (k, [])
  | passphrase :: passphrases =>
    let (next, result) := k.tryUnlock passphrase
    let (last, results) := next.tryAll passphrases
    (last, result :: results)

theorem tryAll_cons (k : Key) (passphrase : String) (passphrases : List String) :
    k.tryAll (passphrase :: passphrases) =
      (((k.tryUnlock passphrase).1.tryAll passphrases).1,
        (k.tryUnlock passphrase).2 :: ((k.tryUnlock passphrase).1.tryAll passphrases).2) := rfl

theorem tryAll_fst_of_unlocked {k : Key} {key : PrivateKey} (h : k.secret = .unlocked key)
    (passphrases : List String) : (k.tryAll passphrases).1 = k := by
  induction passphrases with
  | nil => rfl
  | cons passphrase passphrases ih =>
    have same : (k.tryUnlock passphrase).1 = k := by rw [tryUnlock_of_unlocked h]
    rw [tryAll_cons, same]
    exact ih

/-- A locked key stays as it is up to the first passphrase that opens it, and has what that one
found from then on. -/
theorem tryAll_fst_of_locked {k : Key} {ciphertext iv : Bytes}
    (h : k.secret = .locked ciphertext iv) (passphrases : List String) :
    (k.tryAll passphrases).1 = k ∨
      ∃ passphrase ∈ passphrases, ∃ s publicKey, k.openSecret ciphertext iv passphrase = .ok s ∧
        k.publicHalfWith s = .ok publicKey ∧
          (k.tryAll passphrases).1 = k.opened publicKey s := by
  induction passphrases with
  | nil => exact .inl rfl
  | cons passphrase passphrases ih =>
    rw [tryAll_cons, tryUnlock_eq]
    cases hu : k.unlock passphrase with
    | error e =>
      obtain same | ⟨p, hp, found⟩ := ih
      · exact .inl same
      · exact .inr ⟨p, List.mem_cons_of_mem _ hp, found⟩
    | ok u =>
      obtain ⟨s, publicKey, hs, hp, rfl⟩ := unlock_eq_ok_of_locked h hu
      refine .inr ⟨passphrase, List.mem_cons_self, s, publicKey, hs, hp, ?_⟩
      exact tryAll_fst_of_unlocked rfl passphrases

theorem tryAll_fst_of_errors {k : Key} {passphrases : List String}
    (h : ∀ result ∈ (k.tryAll passphrases).2, ∃ e, result = .error e) :
    (k.tryAll passphrases).1 = k := by
  induction passphrases generalizing k with
  | nil => rfl
  | cons passphrase passphrases ih =>
    obtain ⟨e, he⟩ := h (k.tryUnlock passphrase).2 List.mem_cons_self
    have same := tryUnlock_fst_of_error he
    rw [tryAll_cons, same] at h ⊢
    exact ih fun result hr => h result (List.mem_cons_of_mem _ hr)

/-- An attempt that fails changes nothing, so however many have failed, the next passphrase has
the result and leaves the key that it would have had and left at first. -/
theorem tryUnlock_after_errors (k : Key) :
    (∀ passphrase e, (k.tryUnlock passphrase).2 = .error e → (k.tryUnlock passphrase).1 = k) ∧
      ∀ passphrases, (∀ result ∈ (k.tryAll passphrases).2, ∃ e, result = .error e) →
        ∀ passphrase, (k.tryAll passphrases).1.tryUnlock passphrase = k.tryUnlock passphrase := by
  refine ⟨fun passphrase e h => tryUnlock_fst_of_error h, fun passphrases h passphrase => ?_⟩
  rw [tryAll_fst_of_errors h]

/-- The sequence of a DSA key of small integers, padded to whole blocks. -/
def smallBody : Bytes :=
  [0x30, 18, 2, 1, 0, 2, 1, 23, 2, 1, 11, 2, 1, 4, 2, 1, 8, 2, 1, 3] ++ List.replicate 12 12

def smallKey : PrivateKey where
  type := .dss
  preamble := []
  parts := [[23], [11], [4], [8], [3]]

def smallPublic : PublicKey where
  type := .dss
  parts := [[23], [11], [4], [8]]

def smallVector : Bytes := List.replicate 16 1

/-- The digest of `sesame` and the first half of the vector. -/
def smallDigest : Bytes :=
  [249, 78, 93, 181, 138, 15, 174, 245, 217, 118, 128, 32, 16, 104, 240, 124]

def smallText : Bytes := CipherKind.aes128Cbc.encrypt smallDigest smallVector smallBody

/-- A traditional key that the passphrase `sesame` opens. -/
def smallLocked : Key where
  type := .dss
  format := .legacy .dsa
  publicHalf := none
  comment := ""
  cipher := "AES-128-CBC"
  kdf := md5Name
  kdfOptions := []
  secret := .locked smallText smallVector

theorem smallLocked_tryUnlock_sesame :
    smallLocked.tryUnlock "sesame" = (smallLocked.opened smallPublic ⟨smallKey, ""⟩, .ok ()) := by
  have cipher : CipherKind.ofName? "AES-128-CBC" = some .aes128Cbc := by decide
  have digest : Md5Chain.derive (Utf8.encode "sesame") smallVector 16 = .ok smallDigest := by
    decide +kernel
  have body : Legacy.decode .dsa smallBody = .ok smallKey := by decide +kernel
  have text := Legacy.decrypt_encrypt cipher (by decide) (by decide) digest (by decide)
    (fun _ => (by decide : smallBody.length % blockSize = 0))
  have secret : smallLocked.openSecret smallText smallVector "sesame" = .ok ⟨smallKey, ""⟩ := by
    refine bind_eq_ok.2 ⟨_, text, ?_⟩
    rw [body]
    rfl
  exact tryUnlock_of_openSecret rfl secret (by decide +kernel)

theorem smallLocked_tryUnlock_after_errors :
    (smallLocked.tryUnlock "").1 = smallLocked ∧
      (smallLocked.tryAll ["", ""]).1.tryUnlock "sesame" =
        (smallLocked.opened smallPublic ⟨smallKey, ""⟩, .ok ()) := by
  have errors : (smallLocked.tryAll ["", ""]).2 =
      [.error .passphraseRequired, .error .passphraseRequired] := rfl
  obtain ⟨one, many⟩ := tryUnlock_after_errors smallLocked
  refine ⟨one "" .passphraseRequired rfl, ?_⟩
  rw [many _ (fun result h => ⟨.passphraseRequired, ?_⟩) "sesame"]
  · exact smallLocked_tryUnlock_sesame
  · simpa [errors] using h

end SshKeyring.Key
