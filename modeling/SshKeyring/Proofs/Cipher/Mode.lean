import SshKeyring.Cipher.Decryptor
import SshKeyring.Proofs.Cipher.Aes

/-! A text that was encrypted in either mode is decrypted to what it was, and keeps its length:
in CBC if the block cipher is undone by its decryption and the text is made of whole blocks, in
CTR whatever the block cipher and the length. With AES that holds of every cipher there is. -/

namespace SshKeyring

theorem blockSize_pos : 0 < blockSize := by decide

/-! ### Texts as blocks -/

theorem Aes.Block.bytes_ofBytes {b : Bytes} (h : b.length = blockSize) : (ofBytes b).bytes = b := by
  match b, h with
  | [_, _, _, _, _, _, _, _, _, _, _, _, _, _, _, _], _ => rfl

theorem unblocks_cons (b : Aes.Block) (bs : List Aes.Block) :
    unblocks (b :: bs) = b.bytes ++ unblocks bs := rfl

theorem blocks_bytes_append (b : Aes.Block) (rest : Bytes) :
    blocks (b.bytes ++ rest) = b :: blocks rest := by
  have cut : pieces blockSize (b.bytes ++ rest) = b.bytes :: pieces blockSize rest :=
    pieces_append blockSize_pos b.length_bytes rest
  rw [blocks, cut, List.map_cons, Aes.Block.ofBytes_bytes, blocks]

theorem blocks_unblocks (bs : List Aes.Block) : blocks (unblocks bs) = bs := by
  induction bs with
  | nil => rfl
  | cons b bs ih => rw [unblocks_cons, blocks_bytes_append, ih]

theorem length_unblocks (bs : List Aes.Block) : (unblocks bs).length = blockSize * bs.length := by
  induction bs with
  | nil => rfl
  | cons b bs ih =>
    rw [unblocks_cons, List.length_append, b.length_bytes, ih, List.length_cons, blockSize]
    omega

/-- Induction on a text from its last block to its first. -/
theorem block_induction {P : Bytes → Prop} (nil : P [])
    (step : ∀ text, text ≠ [] → P (text.drop blockSize) → P text) (text : Bytes) : P text := by
  induction hn : text.length using Nat.strongRecOn generalizing text with
  | ind n ih =>
    by_cases empty : text = []
    · rw [empty]
      exact nil
    · have pos : 0 < text.length := List.length_pos_iff.2 empty
      refine step text empty (ih (text.drop blockSize).length ?_ _ rfl)
      rw [List.length_drop]
      unfold blockSize
      omega

/-- A text of whole blocks is put together from them. -/
theorem unblocks_blocks {text : Bytes} (h : text.length % blockSize = 0) :
    unblocks (blocks text) = text := by
  induction text using block_induction with
  | nil => rfl
  | step text ne ih =>
    have pos : 0 < text.length := List.length_pos_iff.2 ne
    have whole : (text.take blockSize).length = blockSize := by
      rw [List.length_take]
      unfold blockSize at h ⊢
      omega
    have rest : (text.drop blockSize).length % blockSize = 0 := by
      rw [List.length_drop]
      unfold blockSize at h ⊢
      omega
    rw [blocks, pieces_of_ne_nil blockSize_pos ne, List.map_cons, unblocks_cons,
      Aes.Block.bytes_ofBytes whole, ← blocks, ih rest, List.take_append_drop]

/-! ### CBC -/

namespace Cbc

variable {c : BlockCipher}

theorem decryptBlocks_encryptBlocks (hc : ∀ b, c.decrypt (c.encrypt b) = b) (iv : Aes.Block)
    (ps : List Aes.Block) : decryptBlocks c iv (encryptBlocks c iv ps) = ps := by
  induction ps generalizing iv with
  | nil => rfl
  | cons p ps ih =>
    rw [encryptBlocks, decryptBlocks, List.zipWith_cons_cons, hc, Aes.Block.add_add_cancel]
    exact congrArg (p :: ·) (ih _)

theorem length_encryptBlocks (iv : Aes.Block) (ps : List Aes.Block) :
    (encryptBlocks c iv ps).length = ps.length := by
  induction ps generalizing iv with
  | nil => rfl
  | cons p ps ih => rw [encryptBlocks, List.length_cons, ih, List.length_cons]

theorem length_encrypt {text : Bytes} (h : text.length % blockSize = 0) (iv : Bytes) :
    (encrypt c iv text).length = text.length := by
  rw [encrypt, length_unblocks, length_encryptBlocks, ← length_unblocks, unblocks_blocks h]

theorem decrypt_encrypt (hc : ∀ b, c.decrypt (c.encrypt b) = b) (iv : Bytes) {text : Bytes}
    (h : text.length % blockSize = 0) : decrypt c iv (encrypt c iv text) = text := by
  rw [decrypt, encrypt, blocks_unblocks, decryptBlocks_encryptBlocks hc, unblocks_blocks h]

end Cbc

/-! ### CTR -/

theorem Bytes.xor_xor_cancel {a k : Bytes} (h : a.length ≤ k.length) : xor (xor a k) k = a := by
  induction a generalizing k with
  | nil => rfl
  | cons x a ih =>
    match k, h with
    | y :: k, h =>
      simp only [xor, List.zipWith_cons_cons, Aes.xor_cancel_right, List.cons.injEq, true_and]
      exact ih (Nat.le_of_succ_le_succ h)

theorem Bytes.length_xor {a k : Bytes} (h : a.length ≤ k.length) : (xor a k).length = a.length := by
  rw [xor, List.length_zipWith, Nat.min_eq_left h]

namespace Ctr

variable (c : BlockCipher) (iv : Bytes)

/-- The text added to the keys from the `n`th on. -/
def applyFrom (n : Nat) (text : Bytes) : Bytes :=
  ((pieces blockSize text).zipIdx n).flatMap fun (piece, n) => Bytes.xor piece (key c iv n)

theorem length_key (n : Nat) : (key c iv n).length = blockSize := Aes.Block.length_bytes _

theorem length_take_le (n : Nat) (text : Bytes) :
    (text.take blockSize).length ≤ (key c iv n).length := by
  rw [length_key]
  exact List.length_take_le _ _

theorem applyFrom_of_ne_nil (n : Nat) {text : Bytes} (h : text ≠ []) : applyFrom c iv n text =
    Bytes.xor (text.take blockSize) (key c iv n) ++
      applyFrom c iv (n + 1) (text.drop blockSize) := by
  rw [applyFrom, pieces_of_ne_nil blockSize_pos h, List.zipIdx_cons, List.flatMap_cons, applyFrom]

theorem length_applyFrom (n : Nat) (text : Bytes) :
    (applyFrom c iv n text).length = text.length := by
  induction text using block_induction generalizing n with
  | nil => rfl
  | step text ne ih =>
    rw [applyFrom_of_ne_nil c iv n ne, List.length_append,
      Bytes.length_xor (length_take_le c iv n text), ih, ← List.length_append,
      List.take_append_drop]

/-- What comes out is cut like the text: the first piece is that of the text with its key added.
A first piece that is short is the last one, so nothing of a later piece is drawn into it. -/
theorem take_drop_applyFrom (n : Nat) {text : Bytes} (h : text ≠ []) :
    (applyFrom c iv n text).take blockSize = Bytes.xor (text.take blockSize) (key c iv n) ∧
      (applyFrom c iv n text).drop blockSize =
        applyFrom c iv (n + 1) (text.drop blockSize) := by
  have front := Bytes.length_xor (length_take_le c iv n text)
  rw [applyFrom_of_ne_nil c iv n h]
  by_cases short : text.length < blockSize
  · have none : applyFrom c iv (n + 1) (text.drop blockSize) = [] := by
      rw [List.drop_eq_nil_of_le (Nat.le_of_lt short)]
      rfl
    have le : (Bytes.xor (text.take blockSize) (key c iv n)).length ≤ blockSize := by
      rw [front]
      exact List.length_take_le _ _
    rw [none, List.append_nil, List.take_of_length_le le, List.drop_eq_nil_of_le le]
    exact ⟨rfl, rfl⟩
  · have whole : (Bytes.xor (text.take blockSize) (key c iv n)).length = blockSize := by
      rw [front, List.length_take]
      omega
    exact ⟨List.take_left' whole, List.drop_left' whole⟩

theorem applyFrom_applyFrom (n : Nat) (text : Bytes) :
    applyFrom c iv n (applyFrom c iv n text) = text := by
  induction text using block_induction generalizing n with
  | nil => rfl
  | step text ne ih =>
    have again : applyFrom c iv n text ≠ [] := by
      rw [← List.length_pos_iff, length_applyFrom]
      exact List.length_pos_iff.2 ne
    obtain ⟨first, others⟩ := take_drop_applyFrom c iv n ne
    rw [applyFrom_of_ne_nil c iv n again, first, others, ih,
      Bytes.xor_xor_cancel (length_take_le c iv n text), List.take_append_drop]

theorem apply_apply (text : Bytes) : apply c iv (apply c iv text) = text :=
  applyFrom_applyFrom c iv 0 text

theorem length_apply (text : Bytes) : (apply c iv text).length = text.length :=
  length_applyFrom c iv 0 text

end Ctr

/-! ### Ciphers -/

theorem Aes.cipher_decrypt_encrypt (key : Bytes) (b : Aes.Block) :
    (Aes.cipher key).decrypt ((Aes.cipher key).encrypt b) = b :=
  Aes.decrypt_encrypt _ b

theorem CipherKind.length_encrypt {kind : CipherKind} {text : Bytes}
    (h : kind.isCbc → text.length % blockSize = 0) (key iv : Bytes) :
    (kind.encrypt key iv text).length = text.length := by
  unfold encrypt
  split
  · next hcbc => exact Cbc.length_encrypt (h hcbc) iv
  · exact Ctr.length_apply _ iv text

theorem Decryptor.ofKey_eq_ok {kind : CipherKind} {key iv : Bytes} (hk : key.length = kind.keySize)
    (hiv : iv.length = blockSize) : ofKey kind key iv = .ok { kind, key, iv } :=
  if_pos ⟨hk, hiv⟩

/-- With the key and the vector that it was encrypted under, a text is decrypted. -/
theorem Decryptor.decrypt_encrypt {kind : CipherKind} {text : Bytes}
    (h : kind.isCbc → text.length % blockSize = 0) (key iv : Bytes) :
    ({ kind, key, iv } : Decryptor).decrypt (kind.encrypt key iv text) = .ok text := by
  have length := kind.length_encrypt h key iv
  unfold decrypt
  by_cases hcbc : kind.isCbc
  · rw [if_pos hcbc, if_pos (length ▸ h hcbc), CipherKind.encrypt, if_pos hcbc,
      Cbc.decrypt_encrypt (Aes.cipher_decrypt_encrypt key) iv (h hcbc)]
  · rw [if_neg hcbc, CipherKind.encrypt, if_neg hcbc, Ctr.apply_apply]

end SshKeyring
