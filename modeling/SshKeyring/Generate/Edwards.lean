import SshKeyring.Modular
import SshKeyring.Digest.Sha2

/-! The public point of an Ed25519 seed: a multiple of the base point of the twisted Edwards
curve `y² - x² = 1 + d x² y²` over the integers modulo `2 ^ 255 - 19`, in projective
coordinates. -/

namespace SshKeyring.Edwards

def prime : Nat := Nat.pow 2 255 - 19

def d : Nat := (prime - 121665) * inverseModPrime 121666 prime % prime

/-- `x / z` and `y / z`. -/
structure Point where
  x : Nat
  y : Nat
  z : Nat
  deriving DecidableEq, Repr

def neutral : Point := ⟨0, 1, 1⟩

/-- The point with `y = 4 / 5` and even `x`. -/
def base : Point where
  x := 15112221349535400772501151409588531511454012693041857206046113283949847762202
  y := 4 * inverseModPrime 5 prime % prime
  z := 1

/-- The addition law, which has no exceptions on this curve. -/
def add (p q : Point) : Point :=
  let a := p.z * q.z % prime
  let b := a * a % prime
  let c := p.x * q.x % prime
  let e := p.y * q.y % prime
  let g := d * c % prime * e % prime
  let f := (b + prime - g) % prime
  let h := (b + g) % prime
  let cross := ((p.x + p.y) * (q.x + q.y) + 2 * prime - c - e) % prime
  ⟨a * f % prime * cross % prime, a * h % prime * (e + c) % prime, f * h % prime⟩

/-- `n` times the point, by at most `fuel` doublings, added to `acc`. -/
def scaleOnto : (fuel n : Nat) → (p acc : Point) → Point
  | 0, _, _, acc => acc
  | fuel + 1, n, p, acc =>
    if n = 0 then acc else scaleOnto fuel (n / 2) (add p p) (if n % 2 = 1 then add acc p else acc)

def scale (n : Nat) (p : Point) : Point := scaleOnto (n.log2 + 1) n p neutral

/-- The coordinate `y` with the lowest bit of `x` in its top bit, least significant byte first. -/
def encode (p : Point) : Bytes :=
  let inverse := inverseModPrime p.z prime
  let x := p.x * inverse % prime
  let y := p.y * inverse % prime
  (Bytes.ofNat 32 (y + x % 2 * Nat.pow 2 255)).reverse

/-- The scalar of a seed: half its digest, a multiple of eight between `2 ^ 254` and
`2 ^ 255`. -/
def scalar (seed : Bytes) : Nat :=
  let n := Bytes.toNat ((sha512 seed).take 32).reverse
  let least := Nat.pow 2 254
  least + n % least / 8 * 8

def publicPoint (seed : Bytes) : Bytes := encode (scale (scalar seed) base)

end SshKeyring.Edwards
