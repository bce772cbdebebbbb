import Mathlib.Tactic.NormNum.Prime
import SshKeyring.Proofs.Der
import SshKeyring.Proofs.Key.Legacy
import SshKeyring.Proofs.Mpint

/-! Traditional RSA keys with and without the numbers that follow the two primes. The last of them
is the inverse of the second prime modulo the first, which is what the key takes where it is not
given, so how many are there makes no difference to the key. -/

namespace SshKeyring.Legacy

/-- The key of these numbers. -/
def rsaKeyOf (n e d coefficient p q : Nat) : PrivateKey where
  type := .rsa
  preamble := []
  parts := [n, e, d, coefficient, p, q].map Mpint.ofNat

theorem rsaKey_of_inverse {body version n e d p q : Bytes} {more : List Bytes} {coefficient : Nat}
    (hbody : Der.Spells (version :: n :: e :: d :: p :: q :: more) body) (hmore : more.length ≤ 3)
    (hinverse : inverse p q more = .ok (Mpint.ofNat coefficient)) :
    rsaKey body = .ok (rsaKeyOf n.toNat e.toNat d.toNat coefficient p.toNat q.toNat) := by
  have ints : Der.integersOf body 6 9 = .ok (version :: n :: e :: d :: p :: q :: more) := by
    refine hbody.integersOf_eq (Nat.le_add_left 6 more.length) ?_
    exact Nat.add_le_add_right hmore 6
  refine bind_eq_ok.2 ⟨_, mapError_eq_ok.2 ints, ?_⟩
  refine bind_eq_ok.2 ⟨_, hinverse, ?_⟩
  simp only [Mpint.ofMagnitude_eq]
  rfl

theorem inverse_eq {p q : Bytes} {coefficient dp dq : Nat} (prime : p.toNat.Prime)
    (odd : Odd p.toNat) (h : q.toNat * coefficient ≡ 1 [MOD p.toNat]) (lt : coefficient < p.toNat)
    {rest : List Bytes}
    (hrest : rest.map Bytes.toNat ∈ [[], [dp], [dp, dq], [dp, dq, coefficient]]) :
    inverse p q rest = .ok (Mpint.ofNat coefficient) := by
  have workedOut := Mpint.crtCoefficient_eq prime odd h lt
  match rest, hrest with
  | [], _ | [_], _ | [_, _], _ => exact workedOut
  | [first, second, given], hrest =>
    have values : first.toNat = dp ∧ second.toNat = dq ∧ given.toNat = coefficient := by
      simpa using hrest
    rw [inverse, Mpint.ofMagnitude_eq, values.2.2]
  | _ :: _ :: _ :: _ :: _, hrest => simp at hrest

/-- Numbers have the same key whether none of those behind the primes are given, only the first of
them, or all, and whatever zeros each of them begins with. The coefficient in the key is the
canonical form of the inverse. -/
theorem decode_of_coefficients {p q coefficient : Nat} (prime : p.Prime) (odd : Odd p)
    (inverse : q * coefficient ≡ 1 [MOD p]) (lt : coefficient < p) (n e d dp dq : Nat) :
    (Mpint.IsCanonical (Mpint.ofNat coefficient) ∧
      Bytes.toNat (Mpint.ofNat coefficient) = coefficient) ∧
      ∀ more ∈ [[], [dp], [dp, dq], [dp, dq, coefficient]], ∀ version numbers body,
        numbers.map Bytes.toNat = n :: e :: d :: p :: q :: more →
          Der.Spells (version :: numbers) body →
            decode .rsa body = .ok (rsaKeyOf n e d coefficient p q) := by
  refine ⟨⟨Mpint.isCanonical_ofNat _, Mpint.toNat_ofNat _⟩, ?_⟩
  intro more hmore version numbers body values hbody
  simp only [List.map_eq_cons_iff] at values
  obtain ⟨n, _, rfl, rfl, e, _, rfl, rfl, d, _, rfl, rfl, p, _, rfl, rfl, q, rest, rfl, rfl, rfl⟩ :=
    values
  have all : ∀ more ∈ [[], [dp], [dp, dq], [dp, dq, coefficient]], more.length ≤ 3 := by simp
  have few : rest.length ≤ 3 := by
    rw [← List.length_map Bytes.toNat]
    exact all _ hmore
  exact rsaKey_of_inverse hbody few (inverse_eq prime odd inverse lt hmore)

/-- The key of the primes 13 and 11 without the numbers behind them. -/
def bareBody : Bytes :=
  [0x30, 0x12, 0x02, 0x01, 0x00, 0x02, 0x01, 0x8F, 0x02, 0x01, 0x07, 0x02, 0x01, 0x67, 0x02, 0x01,
    0x0D, 0x02, 0x01, 0x0B]

/-- The same key with all nine numbers, a zero in front of the product of the primes and of the
inverse, two of the lengths in long form and padding behind the sequence. -/
def fullBody : Bytes :=
  [0x30, 0x82, 0x00, 0x1E, 0x02, 0x01, 0x00, 0x02, 0x02, 0x00, 0x8F, 0x02, 0x01, 0x07, 0x02, 0x81,
    0x01, 0x67, 0x02, 0x01, 0x0D, 0x02, 0x01, 0x0B, 0x02, 0x01, 0x07, 0x02, 0x01, 0x03, 0x02, 0x02,
    0x00, 0x06, 0x02, 0x02]

open Der in
theorem bareBody_spelled : Spells [[0], [0x8F], [7], [0x67], [13], [11]] bareBody := by
  refine ⟨⟨.short 18, bareBody.drop 2, rfl⟩, [⟨.short 1, [0], rfl⟩, ⟨.short 1, [0x8F], rfl⟩,
    ⟨.short 1, [7], rfl⟩, ⟨.short 1, [0x67], rfl⟩, ⟨.short 1, [13], rfl⟩, ⟨.short 1, [11], rfl⟩], [],
    rfl, rfl, rfl, by decide⟩

open Der in
theorem fullBody_spelled :
    Spells [[0], [0, 0x8F], [7], [0x67], [13], [11], [7], [3], [0, 6]] fullBody := by
  refine ⟨⟨.long [0, 30] (by decide) (by decide), (fullBody.drop 4).take 30, rfl⟩,
    [⟨.short 1, [0], rfl⟩, ⟨.short 2, [0, 0x8F], rfl⟩, ⟨.short 1, [7], rfl⟩,
      ⟨.long [1] (by decide) (by decide), [0x67], rfl⟩, ⟨.short 1, [13], rfl⟩, ⟨.short 1, [11], rfl⟩,
      ⟨.short 1, [7], rfl⟩, ⟨.short 1, [3], rfl⟩, ⟨.short 2, [0, 6], rfl⟩], [2, 2],
    rfl, rfl, rfl, by decide⟩

theorem bareBody_decode : decode .rsa bareBody = .ok (rsaKeyOf 143 7 103 6 13 11) ∧
    decode .rsa fullBody = .ok (rsaKeyOf 143 7 103 6 13 11) := by
  obtain ⟨-, same⟩ := decode_of_coefficients (p := 13) (by norm_num) (by decide)
    (by decide : 11 * 6 ≡ 1 [MOD 13]) (by decide) 143 7 103 7 3
  constructor
  · exact same [] (by simp) _ _ _ rfl bareBody_spelled
  · exact same [7, 3, 6] (by simp) _ _ _ rfl fullBody_spelled

end SshKeyring.Legacy
