import SshKeyring.Key.Error
import SshKeyring.Modular

/-! Unsigned integers as the wire writes them: the fewest bytes, with a zero byte in front where
the first would otherwise have its top bit set, and no bytes for zero. -/

namespace SshKeyring.Mpint

/-- The canonical form of the integer that a byte string denotes. -/
def ofMagnitude (magnitude : Bytes) : Bytes :=
  match magnitude.dropWhile (· = 0) with
  | [] => []
  | b :: rest => if b < 0x80 then b :: rest else 0 :: b :: rest

def ofNat (n : Nat) : Bytes := ofMagnitude (Bytes.digits n)

/-- Whether a byte string is in canonical form. -/
def IsCanonical : Bytes → Prop
  | [] => True
  | [b] => b ≠ 0 ∧ b < 0x80
  | b :: c :: _ => b < 0x80 ∧ (b = 0 → 0x80 ≤ c)

/-- The inverse of `q` modulo a prime `p` above two. -/
def crtCoefficient (p q : Bytes) : Except KeyError Bytes :=
  let m := Bytes.toNat p
  if m ≤ 2 then .error (.der .invalidPrime) else .ok (ofNat (inverseModPrime (Bytes.toNat q) m))

end SshKeyring.Mpint
