import SshKeyring.Cipher.Aes

/-! Decryption of a block undoes its encryption, step by step: the substitution box is undone by
its inverse, which comes down to inversion in the field being its own inverse, and the mixing of
columns is undone since both directions are sums of doubles of the bytes of a column. -/

namespace SshKeyring.Aes

/-! ### The substitution box -/

theorem forall_byte {P : UInt8 → Prop} (h : ∀ i : Fin 256, P (UInt8.ofFin i)) (x : UInt8) : P x :=
  h x.toFin

/-- Doubling on the integers that bytes denote. -/
def doubleNat (x : Nat) : Nat := 2 * x % 256 ^^^ 27 * (x / 128)

def mulNat : Nat → Nat → Nat → Nat
  | 0, _, _ => 0
  | n + 1, a, b => a * (b % 2) ^^^ mulNat n (doubleNat a) (b / 2)

def inverseNat (x : Nat) : Nat :=
  let square (y : Nat) := mulNat 8 y y
  let x2 := square x
  let x4 := square x2
  let x8 := square x4
  let x16 := square x8
  let x32 := square x16
  let x64 := square x32
  mulNat 8 x2 (mulNat 8 x4 (mulNat 8 x8 (mulNat 8 x16 (mulNat 8 x32 (mulNat 8 x64 (square x64))))))

theorem toNat_double : ∀ x : UInt8, (double x).toNat = doubleNat x.toNat :=
  forall_byte (by decide +kernel)

theorem toNat_mulBits (n : Nat) (a b : UInt8) :
    (mulBits n a b).toNat = mulNat n a.toNat b.toNat := by
  induction n generalizing a b with
  | zero => rfl
  | succ n ih =>
    have low : (b &&& 1).toNat = b.toNat % 2 := by
      rw [UInt8.toNat_and]
      exact Nat.and_one_is_mod _
    have rest : (b >>> 1).toNat = b.toNat / 2 := by
      rw [UInt8.toNat_shiftRight]
      exact Nat.shiftRight_eq_div_pow _ 1
    rw [mulBits, mulNat, ← toNat_double, ← rest, ← ih, ← low, addIf]
    rcases Nat.mod_two_eq_zero_or_one b.toNat with h | h
    · have clear : b &&& 1 = 0 := UInt8.toNat_inj.1 (low.trans h)
      simp [clear]
    · have set : b &&& 1 = 1 := UInt8.toNat_inj.1 (low.trans h)
      simp [set]

theorem toNat_inverse (x : UInt8) : (inverse x).toNat = inverseNat x.toNat := by
  simp only [inverse, inverseNat, mul, toNat_mulBits]

-- The check of all elements is on integers, which the kernel reckons with faster than with bytes.
theorem inverseNat_inverseNat : ∀ i < 256, inverseNat (inverseNat i) = i := by decide +kernel

theorem inverse_inverse (x : UInt8) : inverse (inverse x) = x := by
  rw [← UInt8.toNat_inj, toNat_inverse, toNat_inverse, inverseNat_inverseNat _ x.toNat_lt]

theorem unaffine_affine : ∀ x, unaffine (affine x) = x := forall_byte (by decide +kernel)

theorem sub_eq (x : UInt8) : sub x = affine (inverse x) := by
  simp [sub, subTable]

theorem unsub_eq (x : UInt8) : unsub x = inverse (unaffine x) := by
  simp [unsub, unsubTable]

theorem unsub_sub (x : UInt8) : unsub (sub x) = x := by
  rw [unsub_eq, sub_eq, unaffine_affine, inverse_inverse]

/-! ### The mixing of columns -/

theorem xor_left_comm (x y z : UInt8) : x ^^^ (y ^^^ z) = y ^^^ (x ^^^ z) := by
  rw [← UInt8.xor_assoc, UInt8.xor_comm x, UInt8.xor_assoc]

theorem xor_cancel_left (x y : UInt8) : x ^^^ (x ^^^ y) = y := by
  rw [← UInt8.xor_assoc, UInt8.xor_self, UInt8.zero_xor]

theorem xor_cancel_right (x y : UInt8) : x ^^^ y ^^^ y = x := by
  rw [UInt8.xor_assoc, UInt8.xor_self, UInt8.xor_zero]

theorem lt_half_iff (x : UInt8) : x < 0x80 ↔ x.toBitVec.msb = false := by
  rw [BitVec.msb_eq_decide, UInt8.lt_iff_toNat_lt]
  simp

theorem double_xor (x y : UInt8) : double (x ^^^ y) = double x ^^^ double y := by
  have carry : (if x ^^^ y < 0x80 then 0 else 0x1B : UInt8) =
      (if x < 0x80 then 0 else 0x1B) ^^^ (if y < 0x80 then 0 else 0x1B) := by
    simp only [lt_half_iff, UInt8.toBitVec_xor, BitVec.msb_xor]
    cases x.toBitVec.msb <;> cases y.toBitVec.msb <;> rfl
  simp only [double, UInt8.shiftLeft_xor, carry, UInt8.xor_assoc, xor_left_comm]

theorem mul_one (x : UInt8) : mul x 1 = x := UInt8.xor_zero

theorem mul_two (x : UInt8) : mul x 2 = double x := UInt8.xor_zero

theorem mul_three (x : UInt8) : mul x 3 = x ^^^ double x := congrArg (x ^^^ ·) (mul_two x)

theorem mul_nine (x : UInt8) : mul x 9 = x ^^^ double (double (double x)) :=
  congrArg (x ^^^ ·) UInt8.xor_zero

theorem mul_eleven (x : UInt8) : mul x 11 = x ^^^ (double x ^^^ double (double (double x))) := by
  change x ^^^ (double x ^^^ (double (double (double x)) ^^^ 0)) = _
  rw [UInt8.xor_zero]

theorem mul_thirteen (x : UInt8) :
    mul x 13 = x ^^^ (double (double x) ^^^ double (double (double x))) := by
  change x ^^^ (double (double x) ^^^ (double (double (double x)) ^^^ 0)) = _
  rw [UInt8.xor_zero]

theorem mul_fourteen (x : UInt8) :
    mul x 14 = double x ^^^ (double (double x) ^^^ double (double (double x))) := by
  change double x ^^^ (double (double x) ^^^ (double (double (double x)) ^^^ 0)) = _
  rw [UInt8.xor_zero]

namespace Column

def sum (x : Column) : UInt8 := x.a ^^^ (x.b ^^^ (x.c ^^^ x.d))

theorem mix_eq (x : Column) : x.mix =
    ⟨x.a ^^^ (x.sum ^^^ double (x.a ^^^ x.b)), x.b ^^^ (x.sum ^^^ double (x.b ^^^ x.c)),
      x.c ^^^ (x.sum ^^^ double (x.c ^^^ x.d)), x.d ^^^ (x.sum ^^^ double (x.d ^^^ x.a))⟩ := by
  simp only [mix, circulant, sum, mul_one, mul_two, mul_three, double_xor, UInt8.xor_assoc,
    UInt8.xor_comm, xor_left_comm, xor_cancel_left]

/-- Beside what mixing does, each byte takes in four times itself and the byte across from it,
and eight times the sum of all. -/
theorem unmix_eq (x : Column) : x.unmix =
    let far := double (double (double x.sum))
    ⟨x.a ^^^ (x.sum ^^^ (double (x.a ^^^ x.b) ^^^ (double (double (x.a ^^^ x.c)) ^^^ far))),
      x.b ^^^ (x.sum ^^^ (double (x.b ^^^ x.c) ^^^ (double (double (x.b ^^^ x.d)) ^^^ far))),
      x.c ^^^ (x.sum ^^^ (double (x.c ^^^ x.d) ^^^ (double (double (x.c ^^^ x.a)) ^^^ far))),
      x.d ^^^ (x.sum ^^^ (double (x.d ^^^ x.a) ^^^ (double (double (x.d ^^^ x.b)) ^^^ far)))⟩ := by
  simp only [unmix, circulant, sum, mul_nine, mul_eleven, mul_thirteen, mul_fourteen, double_xor,
    UInt8.xor_assoc, UInt8.xor_comm, xor_left_comm, xor_cancel_left]

theorem sum_mix (x : Column) : x.mix.sum = x.sum := by
  simp only [mix_eq, sum, double_xor, UInt8.xor_assoc, UInt8.xor_comm, xor_left_comm,
    xor_cancel_left, UInt8.xor_self, UInt8.xor_zero]

theorem unmix_mix (x : Column) : x.mix.unmix = x := by
  rw [unmix_eq, sum_mix]
  simp only [mix_eq, sum, double_xor, UInt8.xor_assoc, UInt8.xor_comm, xor_left_comm,
    xor_cancel_left, UInt8.xor_self, UInt8.xor_zero, UInt8.zero_xor]

theorem map_map_cancel {f g : UInt8 → UInt8} (h : ∀ b, g (f b) = b) (x : Column) :
    (x.map f).map g = x := by
  simp only [map, h]

theorem add_add_cancel (x y : Column) : (x.add y).add y = x := by
  simp only [add, xor_cancel_right]

end Column

/-! ### Rounds -/

namespace Block

theorem map_map_cancel {f g : Column → Column} (h : ∀ c, g (f c) = c) (x : Block) :
    (x.map f).map g = x := by
  simp only [map, h]

theorem add_add_cancel (x y : Block) : (x.add y).add y = x := by
  simp only [add, Column.add_add_cancel]

theorem unsub_sub (x : Block) : (x.map (·.map sub)).map (·.map unsub) = x :=
  map_map_cancel (Column.map_map_cancel Aes.unsub_sub) x

end Block

theorem decryptRound_encryptRound (s key : Block) : decryptRound key (encryptRound s key) = s := by
  rw [decryptRound, encryptRound, Block.add_add_cancel, Block.map_map_cancel Column.unmix_mix,
    Block.unshiftRows_shiftRows, Block.unsub_sub]

/-- The rounds are undone from the last to the first. -/
theorem foldr_decryptRound (keys : List Block) (s : Block) :
    keys.foldr decryptRound (keys.foldl encryptRound s) = s := by
  induction keys generalizing s with
  | nil => rfl
  | cons key keys ih =>
    rw [List.foldl_cons, List.foldr_cons, ih, decryptRound_encryptRound]

theorem decrypt_encrypt (k : Schedule) (b : Block) : decrypt k (encrypt k b) = b := by
  simp only [decrypt, encrypt, Block.add_add_cancel, Block.unshiftRows_shiftRows, Block.unsub_sub,
    foldr_decryptRound]

end SshKeyring.Aes
