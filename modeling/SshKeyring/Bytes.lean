import SshKeyring.Pieces

/-! Byte strings and the integers they denote with the most significant byte first. -/

namespace SshKeyring

abbrev Bytes := List UInt8

namespace Bytes

/-- The integer whose base 256 digits are the bytes, most significant first. -/
def toNat (b : Bytes) : Nat := b.foldl (fun n x => 256 * n + x.toNat) 0

/-- The lowest `len` base 256 digits of `n`, most significant first. -/
def ofNat : Nat → Nat → Bytes
  | 0, _ => []
  | len + 1, n => ofNat len (n / 256) ++ [UInt8.ofNat n]

/-- The base 256 digits of `n` without leading zeros; none for zero. -/
def digits (n : Nat) : Bytes := ofNat (if n = 0 then 0 else n.log2 / 8 + 1) n

/-- The bitwise exclusive or, as long as the shorter of the two. -/
def xor (a b : Bytes) : Bytes := List.zipWith (· ^^^ ·) a b

@[simp] theorem length_ofNat (len n : Nat) : (ofNat len n).length = len := by
  induction len generalizing n with
  | zero => rfl
  | succ len ih => simp [ofNat, ih]

end Bytes

end SshKeyring
