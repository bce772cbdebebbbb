import SshKeyring.Bytes.Value
import SshKeyring.Proofs.Cipher.Mode

/-! What a decryptor does to a text, mode by mode. In CBC it takes whole blocks and undoes the
encryption under its key and initial vector. In CTR it adds to each byte one that depends on
nothing but the place of the byte, so it takes any text, undoes itself, and treats the front of a
text like the text. -/

namespace SshKeyring

namespace Cbc

theorem length_decryptBlocks (c : BlockCipher) (iv : Aes.Block) (xs : List Aes.Block) :
    (decryptBlocks c iv xs).length = xs.length := by
  rw [decryptBlocks, List.length_zipWith, List.length_cons]
  exact Nat.min_eq_right (Nat.le_succ _)

theorem length_decrypt (c : BlockCipher) (iv : Bytes) {text : Bytes}
    (h : text.length % blockSize = 0) : (decrypt c iv text).length = text.length := by
  rw [decrypt, length_unblocks, length_decryptBlocks, ← length_unblocks, unblocks_blocks h]

/-- A way to decrypt that takes whole blocks, and nothing else, and undoes the encryption of any. -/
structure Decrypts (c : BlockCipher) (iv : Bytes) (f : Bytes → Except KeyError Bytes) : Prop where
  refuses : ∀ text, text.length % blockSize ≠ 0 → f text = .error .decryptionFailed
  takes : ∀ text, text.length % blockSize = 0 → ∃ out, f text = .ok out
  undoes : ∀ text, text.length % blockSize = 0 → f (encrypt c iv text) = .ok text

end Cbc

namespace Ctr

/-- What is added to the byte at a place: a byte of the encrypted counter, which counts the blocks
from the initial vector on and starts again at zero after 128 bits. -/
def keyByte (c : BlockCipher) (iv : Bytes) (place : Nat) : UInt8 :=
  let counter := (iv.toNat + place / blockSize) % 2 ^ 128
  (c.encrypt (.ofBytes (Bytes.ofNat blockSize counter))).bytes.getD (place % blockSize) 0

variable (c : BlockCipher) (iv : Bytes)

theorem getElem?_key (n : Nat) {i : Nat} (h : i < blockSize) :
    (key c iv n)[i]? = some (keyByte c iv (blockSize * n + i)) := by
  have block : (blockSize * n + i) / blockSize = n := by
    unfold blockSize at h ⊢
    omega
  have place : (blockSize * n + i) % blockSize = i := by
    unfold blockSize at h ⊢
    omega
  have counter : Bytes.ofNat blockSize ((iv.toNat + n) % 2 ^ 128) =
      Bytes.ofNat blockSize (iv.toNat + n) := Bytes.ofNat_mod blockSize _
  have inside : i < (key c iv n).length := by rwa [length_key]
  simp only [keyByte, block, place, counter]
  rw [← key, List.getD_eq_getElem?_getD, List.getElem?_eq_getElem inside, Option.getD_some]

theorem getElem?_applyFrom (n : Nat) (text : Bytes) (i : Nat) :
    (applyFrom c iv n text)[i]? = text[i]?.map (· ^^^ keyByte c iv (blockSize * n + i)) := by
  induction text using block_induction generalizing n i with
  | nil => rfl
  | step text ne ih =>
    obtain ⟨front, back⟩ := take_drop_applyFrom c iv n ne
    by_cases h : i < blockSize
    · rw [← List.getElem?_take_of_lt h, front, Bytes.xor, List.getElem?_zipWith,
        List.getElem?_take_of_lt h, getElem?_key c iv n h]
      cases text[i]? <;> rfl
    · obtain ⟨i, rfl⟩ := Nat.exists_eq_add_of_le (Nat.not_lt.1 h)
      rw [← List.getElem?_drop, back, ih, List.getElem?_drop, Nat.mul_succ, Nat.add_assoc]

theorem getElem?_apply (text : Bytes) (i : Nat) :
    (apply c iv text)[i]? = text[i]?.map (· ^^^ keyByte c iv i) := by
  have all := getElem?_applyFrom c iv 0 text i
  rwa [Nat.mul_zero, Nat.zero_add] at all

theorem apply_take (text : Bytes) (n : Nat) : apply c iv (text.take n) = (apply c iv text).take n := by
  apply List.ext_getElem?
  intro i
  rw [getElem?_apply, List.getElem?_take, List.getElem?_take, getElem?_apply]
  split <;> rfl

/-- A way to decrypt that takes any text and adds to each byte the one of its place, that undoes
itself, and that gives the front of what it gives for a text when it is given the front of that. -/
structure Decrypts (c : BlockCipher) (iv : Bytes) (f : Bytes → Except KeyError Bytes) : Prop where
  takes : ∀ text, ∃ out, f text = .ok out ∧ ∀ i, out[i]? = text[i]?.map (· ^^^ keyByte c iv i)
  undoes : ∀ text out, f text = .ok out → f out = .ok text
  front : ∀ text out n, f text = .ok out → f (text.take n) = .ok (out.take n)

end Ctr

namespace Decryptor

variable {d : Decryptor} {text : Bytes}

theorem decrypt_of_whole (h : d.kind.isCbc = true) (ht : text.length % blockSize = 0) :
    d.decrypt text = .ok (Cbc.decrypt (Aes.cipher d.key) d.iv text) := by
  rw [decrypt, if_pos h, if_pos ht]

theorem decrypt_of_broken (h : d.kind.isCbc = true) (ht : text.length % blockSize ≠ 0) :
    d.decrypt text = .error .decryptionFailed := by
  rw [decrypt, if_pos h, if_neg ht]

theorem decrypt_of_ctr (h : d.kind.isCbc = false) (text : Bytes) :
    d.decrypt text = .ok (Ctr.apply (Aes.cipher d.key) d.iv text) := by
  rw [decrypt, if_neg (by simp [h])]

theorem length_of_decrypt {out : Bytes} (h : d.decrypt text = .ok out) :
    out.length = text.length := by
  cases hcbc : d.kind.isCbc with
  | true =>
    by_cases ht : text.length % blockSize = 0
    · rw [decrypt_of_whole hcbc ht] at h
      cases h
      exact Cbc.length_decrypt _ _ ht
    · rw [decrypt_of_broken hcbc ht] at h
      cases h
  | false =>
    rw [decrypt_of_ctr hcbc] at h
    cases h
    exact Ctr.length_apply _ _ text

/-- In CTR any text is decrypted, and in CBC any of whole blocks. -/
theorem exists_decrypt (h : d.kind.isCbc → text.length % blockSize = 0) :
    ∃ out, d.decrypt text = .ok out := by
  cases hcbc : d.kind.isCbc with
  | true => exact ⟨_, decrypt_of_whole hcbc (h hcbc)⟩
  | false => exact ⟨_, decrypt_of_ctr hcbc text⟩

theorem decrypts_of_cbc (h : d.kind.isCbc = true) :
    Cbc.Decrypts (Aes.cipher d.key) d.iv d.decrypt := by
  refine ⟨fun text => decrypt_of_broken h, fun text ht => ⟨_, decrypt_of_whole h ht⟩, ?_⟩
  intro text ht
  have hl := Cbc.length_encrypt (c := Aes.cipher d.key) ht d.iv
  rw [decrypt_of_whole h (hl ▸ ht), Cbc.decrypt_encrypt (Aes.cipher_decrypt_encrypt d.key) d.iv ht]

theorem decrypts_of_ctr (h : d.kind.isCbc = false) :
    Ctr.Decrypts (Aes.cipher d.key) d.iv d.decrypt := by
  refine ⟨fun text => ⟨_, decrypt_of_ctr h text, Ctr.getElem?_apply _ _ _⟩, ?_, ?_⟩
  · intro text out hout
    rw [decrypt_of_ctr h] at hout
    cases hout
    rw [decrypt_of_ctr h, Ctr.apply_apply]
  · intro text out n hout
    rw [decrypt_of_ctr h] at hout
    cases hout
    rw [decrypt_of_ctr h, Ctr.apply_take]

/-- A key and an initial vector of the cipher's sizes give a decryptor. What it gives for a text is as
long as the text; in CBC it undoes the encryption of whole blocks and refuses anything else, and in
CTR it takes any text. -/
theorem decrypts_of_sizes {kind : CipherKind} {key iv : Bytes} (hk : key.length = kind.keySize)
    (hiv : iv.length = blockSize) : ∃ d, ofKey kind key iv = .ok d ∧
      (∀ text out, d.decrypt text = .ok out → out.length = text.length) ∧
      if kind.isCbc then Cbc.Decrypts (Aes.cipher key) iv d.decrypt
      else Ctr.Decrypts (Aes.cipher key) iv d.decrypt := by
  refine ⟨{ kind, key, iv }, ofKey_eq_ok hk hiv, fun text out => length_of_decrypt, ?_⟩
  split
  · next h => exact decrypts_of_cbc (d := { kind, key, iv }) h
  · next h => exact decrypts_of_ctr (d := { kind, key, iv }) (eq_false_of_ne_true h)

/-- The last value of the counter, which the second block of a text takes back to zero. -/
def onesVector : Bytes := List.replicate 16 0xFF

/-- A block and a byte. -/
def sevens : Bytes := List.replicate 17 7

theorem sevens_decrypt :
    (∃ d, ofKey .aes256Ctr (List.replicate 32 1) onesVector = .ok d ∧
      ∃ out, d.decrypt sevens = .ok out ∧ out.length = 17 ∧ d.decrypt out = .ok sevens ∧
        d.decrypt (sevens.take 5) = .ok (out.take 5) ∧
          out[16]? = some (7 ^^^ ((Aes.cipher (List.replicate 32 1)).encrypt .zero).bytes.getD 0 0)) ∧
    ∃ d, ofKey .aes128Cbc (List.replicate 16 1) onesVector = .ok d ∧
      d.decrypt sevens = .error .decryptionFailed ∧
        d.decrypt (Cbc.encrypt (Aes.cipher (List.replicate 16 1)) onesVector (sevens.take 16)) =
          .ok (sevens.take 16) := by
  have vector : onesVector.length = blockSize := rfl
  constructor
  · have long : (List.replicate 32 1 : Bytes).length = CipherKind.aes256Ctr.keySize := rfl
    obtain ⟨d, hd, length, laws⟩ := decrypts_of_sizes long vector
    rw [if_neg (by decide)] at laws
    obtain ⟨out, hout, places⟩ := laws.takes sevens
    have last : out[16]? =
        some (7 ^^^ ((Aes.cipher (List.replicate 32 1)).encrypt .zero).bytes.getD 0 0) := by
      rw [places]
      rfl
    exact ⟨d, hd, out, hout, length _ _ hout, laws.undoes _ _ hout, laws.front _ _ 5 hout, last⟩
  · have short : (List.replicate 16 1 : Bytes).length = CipherKind.aes128Cbc.keySize := rfl
    obtain ⟨d, hd, -, laws⟩ := decrypts_of_sizes short vector
    rw [if_pos (by decide)] at laws
    exact ⟨d, hd, laws.refuses _ (by decide), laws.undoes _ (by decide)⟩

end Decryptor

end SshKeyring
