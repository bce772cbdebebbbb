/-! Powers and inverses modulo a natural number. -/

namespace SshKeyring

/-- `acc` times the power, by at most `fuel` squarings. -/
def powModLoop (m : Nat) : (fuel base exponent acc : Nat) → Nat
  | 0, _, _, acc => acc
  | fuel + 1, base, exponent, acc =>
    if exponent = 0 then acc
    else powModLoop m fuel (base * base % m) (exponent / 2)
      (if exponent % 2 = 1 then acc * base % m else acc)

/-- `base ^ exponent % m`. -/
def powMod (base exponent m : Nat) : Nat :=
  powModLoop m (exponent.log2 + 1) (base % m) exponent (1 % m)

/-- The inverse of what a prime does not divide. -/
def inverseModPrime (x p : Nat) : Nat := powMod x (p - 2) p

end SshKeyring
