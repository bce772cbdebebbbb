import Mathlib.FieldTheory.Finite.Basic
import SshKeyring.Bytes.Value
import SshKeyring.Mpint

/-! Powers by squaring are powers modulo the number, so by Fermat's theorem they give inverses
modulo a prime. The canonical form of an integer depends on nothing but the integer: byte strings
that denote the same one, with however many zeros in front, have the same canonical form. Unless it
is empty it has one byte more than the integer fills, and in two's complement it is the shortest byte
string that denotes the integer. -/

namespace SshKeyring

/-! ### Powers and inverses -/

/-- The loop keeps `acc * base ^ exponent` modulo `m`. -/
theorem powModLoop_eq (m : Nat) {fuel exponent acc : Nat} (base : Nat) (he : exponent < 2 ^ fuel)
    (hacc : acc % m = acc) :
    powModLoop m fuel base exponent acc = acc * base ^ exponent % m := by
  induction fuel generalizing base exponent acc with
  | zero =>
    obtain rfl : exponent = 0 := by simpa using he
    rw [powModLoop, Nat.pow_zero, Nat.mul_one, hacc]
  | succ fuel ih =>
    rw [powModLoop]
    split
    · next zero => rw [zero, Nat.pow_zero, Nat.mul_one, hacc]
    · have half : exponent / 2 < 2 ^ fuel := by
        rw [Nat.pow_succ] at he
        omega
      have square : (base * base % m) ^ (exponent / 2) ≡ base ^ (2 * (exponent / 2)) [MOD m] := by
        rw [Nat.pow_mul, Nat.pow_two]
        exact (Nat.mod_modEq _ _).pow _
      split
      · next odd =>
        rw [ih _ half (Nat.mod_mod _ _)]
        calc acc * base % m * (base * base % m) ^ (exponent / 2)
            ≡ acc * base * base ^ (2 * (exponent / 2)) [MOD m] := (Nat.mod_modEq _ _).mul square
          _ = acc * base ^ exponent := by
            have whole : (2 * (exponent / 2)).succ = exponent := by omega
            rw [Nat.mul_assoc, ← Nat.pow_succ', whole]
      · next even =>
        rw [ih _ half hacc]
        calc acc * (base * base % m) ^ (exponent / 2)
            ≡ acc * base ^ (2 * (exponent / 2)) [MOD m] := square.mul_left acc
          _ = acc * base ^ exponent := by
            have whole : 2 * (exponent / 2) = exponent := by omega
            rw [whole]

theorem powMod_eq (base exponent m : Nat) : powMod base exponent m = base ^ exponent % m := by
  rw [powMod, powModLoop_eq m _ Nat.lt_log2_self (Nat.mod_mod _ _)]
  calc 1 % m * (base % m) ^ exponent
      ≡ 1 * base ^ exponent [MOD m] := (Nat.mod_modEq _ _).mul ((Nat.mod_modEq _ _).pow _)
    _ = base ^ exponent := Nat.one_mul _

/-- Of the numbers below a prime, the inverse is the one whose product with `x` leaves one. -/
theorem inverseModPrime_eq {x y p : Nat} (hp : p.Prime) (hxy : x * y ≡ 1 [MOD p]) (hy : y < p) :
    inverseModPrime x p = y := by
  have fermat : x ^ (p - 1) ≡ 1 [MOD p] := by
    rw [← Nat.totient_prime hp]
    exact Nat.ModEq.pow_totient (Nat.coprime_of_mul_modEq_one y hxy)
  have same : x ^ (p - 2) ≡ y [MOD p] := by
    have two := hp.two_le
    calc x ^ (p - 2) = x ^ (p - 2) * 1 := (Nat.mul_one _).symm
      _ ≡ x ^ (p - 2) * (x * y) [MOD p] := hxy.symm.mul_left _
      _ = x ^ (p - 1) * y := by
        rw [← Nat.mul_assoc, ← Nat.pow_succ]
        congr 2
        omega
      _ ≡ 1 * y [MOD p] := fermat.mul_right y
      _ = y := Nat.one_mul y
  rw [inverseModPrime, powMod_eq, same, Nat.mod_eq_of_lt hy]

/-! ### Canonical forms -/

namespace Mpint

instance : (m : Bytes) → Decidable (IsCanonical m)
  | [] => .isTrue trivial
  | [b] => inferInstanceAs (Decidable (b ≠ 0 ∧ b < 0x80))
  | b :: c :: _ => inferInstanceAs (Decidable (b < 0x80 ∧ (b = 0 → 0x80 ≤ c)))

theorem toNat_ofMagnitude (m : Bytes) : Bytes.toNat (ofMagnitude m) = Bytes.toNat m := by
  rw [← Bytes.toNat_dropWhile_zero m, ofMagnitude]
  split
  · next h => rw [h]
  · next h =>
    rw [h]
    split
    · rfl
    · exact Bytes.toNat_zero_cons _

theorem isCanonical_ofMagnitude (m : Bytes) : IsCanonical (ofMagnitude m) := by
  rw [ofMagnitude]
  split
  · trivial
  · next b rest h =>
    have ne : b ≠ 0 := by
      rintro rfl
      exact Bytes.head?_dropWhile_zero m (by rw [h, List.head?_cons])
    split
    · next low =>
      cases rest with
      | nil => exact ⟨ne, low⟩
      | cons c rest => exact ⟨low, fun zero => absurd zero ne⟩
    · next high => exact ⟨by decide, fun _ => UInt8.not_lt.1 high⟩

/-- A byte string in canonical form is its own, and no other is. -/
theorem ofMagnitude_eq_self_iff {m : Bytes} : ofMagnitude m = m ↔ IsCanonical m := by
  refine ⟨fun h => h ▸ isCanonical_ofMagnitude m, fun h => ?_⟩
  match m, h with
  | [], _ => rfl
  | [b], ⟨hne, hlow⟩ =>
    rw [ofMagnitude, List.dropWhile_cons_of_neg (by simpa using hne)]
    exact if_pos hlow
  | b :: c :: rest, ⟨hlow, hzero⟩ =>
    by_cases hb : b = 0
    · have high := hzero hb
      have hne : c ≠ 0 := by
        rintro rfl
        exact absurd high (by decide)
      rw [ofMagnitude, List.dropWhile_cons_of_pos (by simpa using hb),
        List.dropWhile_cons_of_neg (by simpa using hne), hb]
      exact if_neg (UInt8.not_lt.2 high)
    · rw [ofMagnitude, List.dropWhile_cons_of_neg (by simpa using hb)]
      exact if_pos hlow

theorem ofMagnitude_eq (m : Bytes) : ofMagnitude m = ofNat (Bytes.toNat m) := by
  have same : Bytes.toNat (Bytes.digits (Bytes.toNat m)) = Bytes.toNat m := Bytes.toNat_digits _
  rw [ofNat, ofMagnitude, ofMagnitude, Bytes.dropWhile_zero_congr same]

theorem isCanonical_ofNat (n : Nat) : IsCanonical (ofNat n) := isCanonical_ofMagnitude _

theorem toNat_ofNat (n : Nat) : Bytes.toNat (ofNat n) = n := by
  rw [ofNat, toNat_ofMagnitude, Bytes.toNat_digits]

theorem ofMagnitude_eq_iff {a b : Bytes} :
    ofMagnitude a = ofMagnitude b ↔ Bytes.toNat a = Bytes.toNat b := by
  constructor
  · intro same
    rw [← toNat_ofMagnitude a, same, toNat_ofMagnitude]
  · intro same
    rw [ofMagnitude_eq, same, ← ofMagnitude_eq]

/-- An integer has one byte string in canonical form. -/
theorem eq_ofMagnitude_iff {b m : Bytes} :
    b = ofMagnitude m ↔ Bytes.toNat b = Bytes.toNat m ∧ IsCanonical b := by
  constructor
  · rintro rfl
    exact ⟨toNat_ofMagnitude m, isCanonical_ofMagnitude m⟩
  · rintro ⟨same, canonical⟩
    rw [← ofMagnitude_eq_self_iff.2 canonical, ofMagnitude_eq_iff, same]

theorem ofMagnitude_eq_nil_iff {m : Bytes} : ofMagnitude m = [] ↔ Bytes.toNat m = 0 := by
  have empty : Bytes.toNat [] = 0 := rfl
  rw [eq_comm, eq_ofMagnitude_iff, empty, eq_comm]
  exact and_iff_left trivial

/-- The coefficient that is worked out for two primes is the one that may be given with them. -/
theorem crtCoefficient_eq {p q : Bytes} {y : Nat} (prime : (Bytes.toNat p).Prime)
    (odd : Odd (Bytes.toNat p)) (inverse : Bytes.toNat q * y ≡ 1 [MOD Bytes.toNat p])
    (lt : y < Bytes.toNat p) : crtCoefficient p q = .ok (ofNat y) := by
  have large : ¬ Bytes.toNat p ≤ 2 := by
    have two := prime.two_le
    obtain ⟨half, hp⟩ := odd
    omega
  rw [crtCoefficient, if_neg large, inverseModPrime_eq prime inverse lt]

/-! ### Lengths -/

/-- A canonical form has a byte for the bits that fill no whole byte, and that byte has room for a
sign. -/
theorem length_of_isCanonical {b : Bytes} (h : IsCanonical b) :
    b.length - 1 = (Bytes.toNat b).size / 8 := by
  have small {x : UInt8} (low : x < 0x80) : x.toNat.size ≤ 7 :=
    Nat.size_le.2 (UInt8.lt_iff_toNat_lt.1 low)
  match b, h with
  | [], _ => simp [Bytes.toNat]
  | [x], ⟨ne, low⟩ =>
    have bits := small low
    rw [Bytes.size_toNat_cons ne, List.length_nil, List.length_singleton]
    omega
  | x :: c :: rest, ⟨low, zero⟩ =>
    by_cases hx : x = 0
    · have high : 7 < c.toNat.size := Nat.lt_size.2 (UInt8.le_iff_toNat_le.1 (zero hx))
      have byte : c.toNat.size ≤ 8 := Nat.size_le.2 c.toNat_lt
      have ne : c ≠ 0 := by
        rintro rfl
        exact absurd (zero hx) (by decide)
      rw [hx, Bytes.toNat_zero_cons, Bytes.size_toNat_cons ne, List.length_cons, List.length_cons]
      omega
    · have bits := small low
      rw [Bytes.size_toNat_cons hx, List.length_cons, List.length_cons]
      omega

theorem length_ofMagnitude (m : Bytes) :
    (ofMagnitude m).length - 1 = (Bytes.toNat m).size / 8 := by
  rw [length_of_isCanonical (isCanonical_ofMagnitude m), toNat_ofMagnitude]

/-! ### Two's complement -/

/-- The integer that a byte string denotes on the wire, where the top bit of the first byte is the
sign. -/
def value (b : Bytes) : Int :=
  if b.headD 0 < 0x80 then Bytes.toNat b else Bytes.toNat b - 256 ^ b.length

theorem value_eq_natCast_iff {b : Bytes} {n : Nat} :
    value b = n ↔ b.headD 0 < 0x80 ∧ Bytes.toNat b = n := by
  unfold value
  split
  · next low => rw [Int.natCast_inj, and_iff_right low]
  · next high =>
    have lt : (Bytes.toNat b : Int) < 256 ^ b.length := mod_cast Bytes.toNat_lt b
    simp only [high, false_and, iff_false]
    omega

theorem isCanonical_iff {b : Bytes} :
    IsCanonical b ↔ b.headD 0 < 0x80 ∧ ∀ rest, b = 0 :: rest → 0x80 ≤ rest.headD 0 := by
  match b with
  | [] => simp [IsCanonical]
  | [x] =>
    simp only [IsCanonical, List.headD_cons, List.cons.injEq]
    constructor
    · rintro ⟨ne, low⟩
      exact ⟨low, fun _ h => absurd h.1 ne⟩
    · rintro ⟨low, zero⟩
      refine ⟨fun h => ?_, low⟩
      exact absurd (zero [] ⟨h, rfl⟩) (by decide)
  | x :: c :: rest => simp [IsCanonical]

/-- Without a sign a byte string is a canonical form, or has zeros in front that are not needed. -/
theorem ofMagnitude_eq_self_or_length_lt {b : Bytes} (low : b.headD 0 < 0x80) :
    ofMagnitude b = b ∨ (ofMagnitude b).length < b.length := by
  induction b with
  | nil => exact .inl rfl
  | cons x b ih =>
    by_cases canonical : IsCanonical (x :: b)
    · exact .inl (ofMagnitude_eq_self_iff.2 canonical)
    · rw [isCanonical_iff, and_iff_right low, not_forall] at canonical
      obtain ⟨rest, high⟩ := canonical
      rw [Classical.not_imp, UInt8.not_le] at high
      obtain ⟨rfl, rfl⟩ := List.cons.inj high.1
      have same : ofMagnitude (0 :: b) = ofMagnitude b :=
        ofMagnitude_eq_iff.2 (Bytes.toNat_zero_cons b)
      right
      rw [same, List.length_cons]
      obtain self | shorter := ih high.2
      · rw [self]
        exact Nat.lt_succ_self _
      · omega

/-- The canonical form of an integer is the one byte string that denotes it, has no top bit in its
first byte and begins with a zero only in front of a byte with the top bit. In two's complement it
denotes the integer as well, and all other byte strings that do are longer. It is empty for zero
only, so there is one for each integer, and a canonical form is its own. -/
theorem ofMagnitude_minimal (m : Bytes) :
    (∀ b, b = ofMagnitude m ↔ Bytes.toNat b = Bytes.toNat m ∧ b.headD 0 < 0x80 ∧
      ∀ rest, b = 0 :: rest → 0x80 ≤ rest.headD 0) ∧
      value (ofMagnitude m) = Bytes.toNat m ∧
      (∀ b, value b = Bytes.toNat m → b = ofMagnitude m ∨ (ofMagnitude m).length < b.length) ∧
      (ofMagnitude m = [] ↔ Bytes.toNat m = 0) ∧
      (∀ a, ofMagnitude a = ofMagnitude m ↔ Bytes.toNat a = Bytes.toNat m) ∧
      ofMagnitude (ofMagnitude m) = ofMagnitude m := by
  have low := (isCanonical_iff.1 (isCanonical_ofMagnitude m)).1
  refine ⟨fun b => ?_, ?_, fun b denotes => ?_, ofMagnitude_eq_nil_iff,
    fun a => ofMagnitude_eq_iff, ?_⟩
  · rw [eq_ofMagnitude_iff, isCanonical_iff]
  · exact value_eq_natCast_iff.2 ⟨low, toNat_ofMagnitude m⟩
  · obtain ⟨positive, same⟩ := value_eq_natCast_iff.1 denotes
    rw [← ofMagnitude_eq_iff.2 same, eq_comm]
    exact ofMagnitude_eq_self_or_length_lt positive
  · exact ofMagnitude_eq_iff.2 (toNat_ofMagnitude m)

end Mpint

end SshKeyring
