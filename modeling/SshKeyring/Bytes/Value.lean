import Mathlib.Algebra.Group.Nat.Defs
import Mathlib.Data.List.Induction
import Mathlib.Data.Nat.Size
import SshKeyring.Bytes

/-! The integer that a byte string denotes: of two strings one after the other, and of the
digits of a number, which are read back modulo a power of 256. As many digits as there were bytes
give the bytes again, and but for zeros in front an integer has one string. The size of the integer
in bits is that of the first byte that is not zero and eight for each byte behind it. -/

namespace SshKeyring.Bytes

theorem toNat_append (a b : Bytes) : toNat (a ++ b) = toNat a * 256 ^ b.length + toNat b := by
  have key (n : Nat) (b : Bytes) :
      b.foldl (fun n x => 256 * n + x.toNat) n = n * 256 ^ b.length + toNat b := by
    induction b generalizing n with
    | nil => simp [toNat]
    | cons x b ih =>
      rw [toNat, List.foldl_cons, List.foldl_cons, ih, ih (256 * 0 + x.toNat), List.length_cons,
        Nat.pow_succ]
      grind
  rw [toNat, List.foldl_append, key]
  rfl

theorem toNat_ofNat (len n : Nat) : toNat (ofNat len n) = n % 256 ^ len := by
  induction len generalizing n with
  | zero => simp [ofNat, toNat, Nat.mod_one]
  | succ len ih =>
    have last : toNat [UInt8.ofNat n] = n % 256 := by simp [toNat]
    rw [ofNat, toNat_append, ih, last, Nat.pow_succ, Nat.mul_comm (256 ^ len) 256, Nat.mod_mul,
      List.length_singleton, Nat.pow_one, Nat.mul_comm, Nat.add_comm]

theorem ofNat_toNat (b : Bytes) : ofNat b.length (toNat b) = b := by
  induction b using List.reverseRecOn with
  | nil => rfl
  | append_singleton b x ih =>
    have hx := x.toNat_lt
    have last : toNat [x] = x.toNat := by simp [toNat]
    have high : (toNat b * 256 ^ [x].length + x.toNat) / 256 = toNat b := by
      rw [List.length_singleton]
      omega
    have low : UInt8.ofNat (toNat b * 256 ^ [x].length + x.toNat) = x := by
      rw [← UInt8.toNat_inj, UInt8.toNat_ofNat', List.length_singleton]
      omega
    rw [List.length_append, List.length_singleton, ofNat, toNat_append, last, high, ih, low]

/-- The lowest digits are those of the remainder. -/
theorem ofNat_mod (len n : Nat) : ofNat len (n % 256 ^ len) = ofNat len n := by
  have again := ofNat_toNat (ofNat len n)
  rwa [length_ofNat, toNat_ofNat] at again

theorem toNat_lt (b : Bytes) : toNat b < 256 ^ b.length := by
  rw [← ofNat_toNat b, toNat_ofNat, ofNat_toNat]
  exact Nat.mod_lt _ (Nat.pow_pos (by decide))

/-! ### Leading zeros -/

theorem toNat_cons (x : UInt8) (b : Bytes) :
    toNat (x :: b) = x.toNat * 256 ^ b.length + toNat b := by
  have first : toNat [x] = x.toNat := by simp [toNat]
  rw [← List.singleton_append, toNat_append, first]

theorem toNat_zero_cons (b : Bytes) : toNat (0 :: b) = toNat b := by
  rw [toNat_cons, UInt8.toNat_zero, Nat.zero_mul, Nat.zero_add]

theorem toNat_dropWhile_zero (b : Bytes) : toNat (b.dropWhile (· = 0)) = toNat b := by
  induction b with
  | nil => rfl
  | cons x b ih =>
    by_cases zero : x = 0
    · rw [zero, List.dropWhile_cons_of_pos (by simp), ih, toNat_zero_cons]
    · rw [List.dropWhile_cons_of_neg (by simpa using zero)]

theorem head?_dropWhile_zero (b : Bytes) : (b.dropWhile (· = 0)).head? ≠ some 0 := by
  intro zero
  simpa [zero] using List.head?_dropWhile_not (· = (0 : UInt8)) b

theorem length_le_of_toNat_le {a b : Bytes} (h : a.head? ≠ some 0) (le : toNat a ≤ toNat b) :
    a.length ≤ b.length := by
  cases a with
  | nil => exact Nat.zero_le _
  | cons x a =>
    have pos : 0 < x.toNat := by
      rw [Nat.pos_iff_ne_zero]
      intro zero
      exact h (congrArg some (UInt8.toNat_inj.1 zero))
    have shorter : 256 ^ a.length < 256 ^ b.length := by
      calc 256 ^ a.length ≤ x.toNat * 256 ^ a.length := Nat.le_mul_of_pos_left _ pos
        _ ≤ toNat (x :: a) := toNat_cons x a ▸ Nat.le_add_right _ _
        _ ≤ toNat b := le
        _ < 256 ^ b.length := toNat_lt b
    exact (Nat.pow_lt_pow_iff_right (by decide)).1 shorter

/-- But for the zeros it begins with, a byte string is told by the integer it denotes. -/
theorem dropWhile_zero_congr {a b : Bytes} (h : toNat a = toNat b) :
    a.dropWhile (· = 0) = b.dropWhile (· = 0) := by
  rw [← toNat_dropWhile_zero a, ← toNat_dropWhile_zero b] at h
  have length := Nat.le_antisymm
    (length_le_of_toNat_le (head?_dropWhile_zero a) (Nat.le_of_eq h))
    (length_le_of_toNat_le (head?_dropWhile_zero b) (Nat.le_of_eq h.symm))
  rw [← ofNat_toNat (a.dropWhile _), h, length, ofNat_toNat]

theorem toNat_digits (n : Nat) : toNat (digits n) = n := by
  rw [digits, toNat_ofNat]
  split
  · next zero => rw [zero, Nat.zero_mod]
  · have fits : n < 256 ^ (n.log2 / 8 + 1) := by
      calc n < 2 ^ (n.log2 + 1) := Nat.lt_log2_self
        _ ≤ 2 ^ (8 * (n.log2 / 8 + 1)) := Nat.pow_le_pow_right (by decide) (by omega)
        _ = 256 ^ (n.log2 / 8 + 1) := Nat.pow_mul 2 8 _
    exact Nat.mod_eq_of_lt fits

/-! ### Sizes in bits -/

theorem size_toNat_cons {x : UInt8} (hx : x ≠ 0) (b : Bytes) :
    (toNat (x :: b)).size = 8 * b.length + x.toNat.size := by
  have ne : x.toNat ≠ 0 := fun zero => hx (UInt8.toNat_inj.1 zero)
  have block : 256 ^ b.length = 2 ^ (8 * b.length) := (Nat.pow_mul 2 8 _).symm
  apply Nat.le_antisymm
  · rw [Nat.size_le]
    calc toNat (x :: b) < x.toNat * 256 ^ b.length + 256 ^ b.length :=
          toNat_cons x b ▸ Nat.add_lt_add_left (toNat_lt b) _
      _ = (x.toNat + 1) * 256 ^ b.length := (Nat.succ_mul _ _).symm
      _ ≤ 2 ^ x.toNat.size * 256 ^ b.length := Nat.mul_le_mul_right _ (Nat.lt_size_self _)
      _ = 2 ^ (8 * b.length + x.toNat.size) := by rw [block, ← Nat.pow_add, Nat.add_comm]
  · calc 8 * b.length + x.toNat.size = (x.toNat <<< (8 * b.length)).size := by
          rw [Nat.size_shiftLeft ne, Nat.add_comm]
      _ ≤ (toNat (x :: b)).size := by
          apply Nat.size_le_size
          rw [Nat.shiftLeft_eq, toNat_cons, block]
          exact Nat.le_add_right _ _

end SshKeyring.Bytes
