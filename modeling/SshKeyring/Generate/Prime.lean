import SshKeyring.Modular
import SshKeyring.Digest.Sha2

/-! Probable primes: a search upward from a random start, each candidate put to trial division
and to the Miller–Rabin test. -/

namespace SshKeyring.Prime

/-- The primes below two thousand: no number from 2 to 44 divides them but themselves. -/
def small : List Nat :=
  ((List.range 2000).drop 2).filter fun n => ((List.range 45).drop 2).all fun d => n = d || n % d ≠ 0

/-- The bases of the test: the primes below forty. -/
def bases : List Nat := small.takeWhile (· < 40)

/-- Whether minus one comes up among `x` and its next squarings, `twos` numbers in all. -/
def reachesMinusOne (n : Nat) : (twos x : Nat) → Bool
  | 0, _ => false
  | twos + 1, x => x = n - 1 || reachesMinusOne n twos (x * x % n)

/-- Writes `m` as an odd number times a power of two, after `twos` halvings. -/
def splitOdd : (fuel twos m : Nat) → Nat × Nat
  | 0, twos, m => (twos, m)
  | fuel + 1, twos, m => if m % 2 = 0 then splitOdd fuel (twos + 1) (m / 2) else (twos, m)

/-- Whether an odd `n` passes the test to a base. -/
def passes (n base : Nat) : Bool :=
  let (twos, odd) := splitOdd (n.log2 + 1) 0 (n - 1)
  let x := powMod base odd n
  x = 1 || reachesMinusOne n twos x

def isProbable (n : Nat) : Bool :=
  small.all (fun p => n = p || n % p ≠ 0) && bases.all (fun b => n = b || passes n b)

/-- The first of `tries` odd numbers from `n` on that is a probable prime and lies one above no
multiple of `exponent`. -/
def search (exponent : Nat) : (tries n : Nat) → Option Nat
  | 0, _ => none
  | tries + 1, n =>
    if n % exponent ≠ 1 && isProbable n then some n else search exponent tries (n + 2)

/-- `length` bytes drawn from a seed, different ones for each label. -/
def draw (seed : Bytes) (label : UInt8) (length : Nat) : Bytes :=
  ((List.range ((length + 63) / 64)).flatMap fun i =>
    sha512 (label :: Bytes.ofNat 4 i ++ seed)).take length

/-- A prime of exactly `bits` bits whose two highest bits are set. -/
def random (seed : Bytes) (label : UInt8) (exponent bits : Nat) : Option Nat :=
  let quarter := Nat.pow 2 (bits - 2)
  let drawn := Bytes.toNat (draw seed label (bits / 8 + 1)) % quarter
  let start := 3 * quarter + (drawn / 2 * 2 + 1)
  match search exponent (100 * bits) start with
  | some p => if p < 4 * quarter then some p else none
  | none => none

end SshKeyring.Prime
