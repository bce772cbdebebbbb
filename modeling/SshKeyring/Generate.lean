import SshKeyring.Generate.Edwards
import SshKeyring.Generate.Prime
import SshKeyring.Key

/-! New keys, as functions of a random seed. -/

namespace SshKeyring.Key

def leastRsaBits : Nat := 1024

def rsaExponent : Nat := 65537

/-- The inverse of the exponent, which is a prime, modulo `m`. -/
def rsaInverse (m : Nat) : Nat :=
  (1 + m * (rsaExponent - inverseModPrime m rsaExponent)) / rsaExponent

/-- The private half with two given primes. -/
def rsaOfPrimes (p q : Nat) : Except KeyError PrivateKey := do
  let inverse ← Mpint.crtCoefficient (Bytes.digits p) (Bytes.digits q)
  let mpint := Mpint.ofNat
  PrivateKey.ofParts .rsa
    [mpint (p * q), mpint rsaExponent, mpint (rsaInverse ((p - 1) * (q - 1))), inverse, mpint p,
      mpint q]

/-- An RSA key whose modulus has the given number of bits. -/
def generateRsa (seed : Bytes) (bits : Nat) (comment : String) : Except KeyError Key := do
  if bits < leastRsaBits then throw (.generation .invalidModulus)
  let some p := Prime.random seed 1 rsaExponent (bits / 2) | throw (.generation .noPrime)
  let some q := Prime.random seed 2 rsaExponent (bits - bits / 2) | throw (.generation .noPrime)
  if p = q then throw (.generation .noPrime)
  ofPrivate (← rsaOfPrimes p q) comment

/-- The Ed25519 key of a seed of 32 bytes. -/
def generateEd25519 (seed : Bytes) (comment : String) : Except KeyError Key := do
  let point := Edwards.publicPoint seed
  ofPrivate (← PrivateKey.ofParts .ed25519 [point, seed ++ point]) comment

end SshKeyring.Key
