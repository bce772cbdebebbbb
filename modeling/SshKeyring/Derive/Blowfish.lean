import SshKeyring.Bytes

/-! The Blowfish cipher with a salted key schedule. Its state is one run of words: 18 subkeys
and then four boxes of 256 words. The state begins as the digits of π after the point. -/

namespace SshKeyring.Blowfish

/-- Sums the terms `power / odd` of the arc tangent series, every other one into `less`;
`square` is the square of the inverse argument. -/
def arctanTerms (square : Nat) : Nat → (power odd more less : Nat) → Nat
  | 0, _, _, more, less => more - less
  | n + 1, power, odd, more, less =>
    arctanTerms square n (power / square) (odd + 2) less (more + power / odd)

/-- The arc tangent of `1 / x` in units of `1 / unit`, from an even number of terms. -/
def arctan (unit x terms : Nat) : Nat := arctanTerms (x * x) (2 * terms) (unit / x) 1 0 0

def wordCount : Nat := 1042

/-- The first `32 * wordCount` bits of π after the point, as one integer, by Machin's formula
with 64 bits to spare. -/
def piFraction : Nat :=
  let unit := Nat.pow 2 (32 * wordCount + 64)
  let pi := 16 * arctan unit 5 4000 - 4 * arctan unit 239 2000
  (pi % unit) >>> 64

abbrev State := Vector UInt32 1042

def piWords : State := Vector.ofFn fun i => UInt32.ofNat (piFraction >>> (32 * (1041 - i.val)))

/-- The word that box `j` holds for a byte. -/
@[inline] def box (s : State) (j : Fin 4) (b : UInt8) : UInt32 :=
  have := b.toNat_lt
  s[18 + 256 * j + b.toNat]

@[inline] def mix (s : State) (x : UInt32) : UInt32 :=
  ((box s 0 (x >>> 24).toUInt8 + box s 1 (x >>> 16).toUInt8) ^^^ box s 2 (x >>> 8).toUInt8) +
    box s 3 x.toUInt8

/-- The last `n` of the sixteen rounds and the two subkeys after them. -/
def rounds (s : State) : (n : Nat) → n ≤ 16 → UInt32 → UInt32 → UInt32 × UInt32
  | 0, _, l, r => (r ^^^ s[17], l ^^^ s[16])
  | n + 1, h, l, r =>
    let l := l ^^^ s[15 - n]
    rounds s n (by omega) (r ^^^ mix s l) l

def encipher (s : State) (l r : UInt32) : UInt32 × UInt32 := rounds s 16 (by decide) l r

/-- Replaces the last `2 * n` words of the state, pair after pair, by the encryption of the pair
before with the salt mixed in. -/
def refill (salt : Vector UInt32 16) : (n : Nat) → n ≤ 521 → State → UInt32 → UInt32 → State
  | 0, _, s, _, _ => s
  | n + 1, h, s, l, r =>
    let i := 2 * (520 - n)
    match encipher s (l ^^^ salt[i % 16]) (r ^^^ salt[(i + 1) % 16]) with
    | (l, r) => refill salt n (by omega) ((s.set i l).set (i + 1) r) l r

/-- Mixes the key into the subkeys. -/
def addKey (key : Vector UInt32 16) (s : State) : State :=
  Fin.foldl 18 (fun s i => s.set i (s[i] ^^^ key[i.val % 16])) s

def expand (salt key : Vector UInt32 16) (s : State) : State :=
  refill salt 521 (by decide) (addKey key s) 0 0

end SshKeyring.Blowfish
